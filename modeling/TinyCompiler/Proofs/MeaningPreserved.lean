import TinyCompiler.Proofs.StatementCode

/-! The text of a compiled program, read line by line and run from its entry, agrees with the
meaning of the program. -/
namespace TinyCompiler

open Lowering Machine

/-- Called in a state, the machine agrees with the results of an interpreter: it returns their
value, with both pointers and the stack from its top on as they were, or it faults where they do,
or it never ends where no fuel lasts. -/
structure Agrees (image : List Item) (s : State) (interpret : Nat → Result) : Prop where
  value : ∀ fuel v, interpret fuel = .value v → ∃ n s', run image n s = .returned s' ∧
    s'.registers .rax = .word v ∧ Keeps s s'
  fault : ∀ fuel, interpret fuel = .fault → ∃ n, run image n s = .fault
  exhausted : (∀ fuel, interpret fuel = .exhausted) → ∀ n, ∃ s', run image n s = .running s'

variable {image : List Item} {t : SymbolTable} {env : Env} {s : State} {entry : String}

theorem Machine.running_of_lasts {n : Nat} (h : Lasts image s n) :
    ∃ s', run image n s = .running s' := by
  obtain ⟨k, s', hk, hrun⟩ := h
  by_contra hended
  have hmono := run_mono hk fun s' hs' => hended ⟨s', hs'⟩
  exact hended ⟨s', hmono.symm.trans hrun⟩

theorem reaches_room {frame : Nat} {base : Int}
    (hat : At image s.pc (if frame = 0 then [] else code [.alu .sub .rsp (.immediate frame)]))
    (htop : s.registers .rsp = .address base) :
    Reaches image s fun s' =>
      s'.pc = s.pc +
        (if frame = 0 then [] else code [.alu .sub .rsp (.immediate frame)] : List Line).length ∧
      s'.registers .rsp = .address (base - frame) ∧ s'.registers .rbp = s.registers .rbp ∧
      s'.memory = s.memory := by
  by_cases hframe : frame = 0
  · rw [hframe]
    refine .refl ⟨rfl, ?_, rfl, rfl⟩
    rw [htop]
    exact congrArg Value.address (Int.sub_zero base).symm
  · rw [if_neg hframe] at hat ⊢
    have hsub : advance s .sub [.register .rsp, .immediate frame] =
        some (({ s with flags := none } : State).set .rsp (.address (base - frame))) := by
      rw [advance, htop]
    exact .of_step (step_of_advance hat hsub) (.refl ⟨rfl, rfl, rfl, rfl⟩)

/-- The prologue keeps the base pointer of the caller below the place to return to, and makes room
for the slots. -/
theorem reaches_prologue {top : Int}
    (hat : At image 0 (Program.prologue entry t.frameSize)) (hpc : s.pc = 2)
    (htop : s.registers .rsp = .address top)
    (hslots : ∀ name slot, t.slot? name = some slot →
      s.memory (top - 8 - slot) = .word (env name)) :
    Reaches image s fun s' => s'.pc = (Program.prologue entry t.frameSize).length ∧
      Holds t ⟨env, 0⟩ (top - 8) s' ∧ s'.memory (top - 8) = s.registers .rbp ∧
      Above top s s' := by
  have hentry : step image s = .running s.next := by
    have hline : image[2]? = some (.label entry) := hat.left.left.left.2.2.1
    rw [step, hpc, hline]
  have hatpush := hat.left.left.right 3 rfl
  have hatroom := hat.left.right 5 rfl
  let pushed := ((s.next.set .rsp (.address (top - 8))).store (top - 8) (s.registers .rbp)).next
  have hpush : advance s.next .push [.register .rbp] = some _ := advance_push htop
  have hmov : advance pushed .mov [.register .rbp, .register .rsp] =
      some (pushed.set .rbp (.address (top - 8))) :=
    advance_mov rfl
  have hnext : s.next.pc = 3 := congrArg (· + 1) hpc
  have hfollow : follow s.next [.push .rbp, .mov .rbp (.register .rsp)] = some _ :=
    (follow_cons hpush).trans (follow_cons hmov)
  let framed := (pushed.set .rbp (.address (top - 8))).next
  refine .of_step hentry (reaches_follow (hnext ▸ hatpush) hfollow fun hpc₁ => ?_)
  replace hpc₁ : framed.pc = 5 := hpc₁.trans (by rw [hnext]; rfl)
  have hroom := reaches_room (hpc₁ ▸ hatroom) (rfl : framed.registers .rsp = .address (top - 8))
  refine hroom.trans fun s₁ hs₁ => ?_
  obtain ⟨hpc₂, htop₁, hbase₁, hmemory₁⟩ := hs₁
  rw [hpc₁] at hpc₂
  have hlength : (Program.prologue entry t.frameSize).length = s₁.pc + 1 := by
    rw [Program.prologue, List.length_append, hpc₂]
    simp only [List.length_append, length_code, List.length_cons, List.length_nil]
  have hatmov := hat.right s₁.pc (by
    rw [Program.prologue, List.length_append] at hlength
    exact (Nat.succ_inj.mp hlength).symm.trans (Nat.zero_add _).symm)
  rw [hlength]
  have hmemory : s₁.memory = pushed.memory := hmemory₁
  refine .of_step (step_of_advance hatmov (advance_mov rfl))
    (.refl ⟨rfl, ⟨⟨hbase₁, ⟨_, htop₁, le_rfl⟩, fun name slot hslot => ?_⟩, rfl⟩, ?_, ?_⟩)
  · have hpos := t.slot?_pos hslot
    have hslot' : s₁.memory (top - 8 - slot) = s.memory (top - 8 - slot) := by
      rw [hmemory]
      exact if_neg (by omega)
    exact hslot'.trans (hslots name slot hslot)
  · exact (congrFun hmemory (top - 8)).trans (if_pos rfl)
  · exact fun a ha => (congrFun hmemory a).trans (if_neg (by omega))

/-- The epilogue undoes what the prologue did. -/
theorem returns_epilogue {base : Int} {v : Int64}
    (hat : At image s.pc Program.epilogue)
    (hbase : s.registers .rbp = .address base) (hrax : s.registers .rax = .word v) :
    ∃ n s', run image n s = .returned s' ∧ s'.registers .rax = .word v ∧
      s'.registers .rbp = s.memory base ∧ s'.registers .rsp = .address (base + 8) ∧
      s'.memory = s.memory := by
  let restored := (s.next.set .rsp (.address base)).next
  let popped := ((restored.set .rsp (.address (base + 8))).set .rbp (restored.memory base)).next
  have hmov : advance s.next .mov [.register .rsp, .register .rbp] =
      some (s.next.set .rsp (.address base)) :=
    advance_mov (congrArg some hbase)
  have hpop : advance restored .pop [.register .rbp] = some _ := advance_pop rfl
  have hret : step image popped = .returned popped := by
    have hline : image[popped.pc]? = some (Line.instruction .ret).item := hat.2.2.2.1
    rw [step, hline]
    rfl
  refine ⟨4, popped, ?_, hrax, rfl, rfl, rfl⟩
  rw [run_succ_of_step (step_label hat), run_succ_of_step (step_of_advance hat.2 hmov),
    run_succ_of_step (step_of_advance hat.2.2 hpop), run, hret]

theorem Label.render_ne {name : String} (h : name.toList.head? ≠ some '.') (l : Label) :
    l.render ≠ name := by
  intro heq
  obtain ⟨cs, hcs, -⟩ := l.toList_render
  rw [heq] at hcs
  exact h (by rw [hcs]; rfl)

/-- Statements that have a value lead to the exit with it. -/
theorem Follows.reaches_exit {base : Int} {exit fuel : Nat} {e : Ending} {v : Int64}
    (h : Follows image t base exit fuel s exit e) (hv : e.result = .value v) :
    Reaches image s fun s' => s'.pc = exit ∧ s'.registers .rax = .word v ∧
      s'.registers .rbp = .address base ∧ Above base s s' := by
  cases e with
  | next σ =>
    cases hv
    exact h.mono fun s' ⟨hpc, hholds, habove⟩ => ⟨hpc, hholds.last, hholds.frame.pointer, habove⟩
  | returned value =>
    cases hv
    exact h
  | fault => cases hv
  | exhausted => cases hv

/-- A function whose statements end as they mean agrees with them. -/
theorem agrees_of_follows {top : Int} {exit : Nat} {statements : Nat → Ending}
    (hepilogue : At image exit Program.epilogue) (htop : s.registers .rsp = .address top)
    (h : Reaches image s fun s' => s'.memory (top - 8) = s.registers .rbp ∧ Above top s s' ∧
      ∀ fuel, Follows image t (top - 8) exit fuel s' exit (statements fuel)) :
    Agrees image s fun fuel => (statements fuel).result := by
  refine ⟨fun fuel v hv => ?_, fun fuel hfault => ?_, fun hexhausted n => ?_⟩
  · have hexit : Reaches image s fun s' => s'.pc = exit ∧ s'.registers .rax = .word v ∧
        s'.registers .rbp = .address (top - 8) ∧ s'.memory (top - 8) = s.registers .rbp ∧
        Above top s s' := by
      refine h.trans fun s₁ ⟨hold, habove, hfollows⟩ => ?_
      refine ((hfollows fuel).reaches_exit hv).mono fun s₂ ⟨hpc, hrax, hbase, habove'⟩ => ?_
      refine ⟨hpc, hrax, hbase, (habove' _ le_rfl).trans hold, fun a ha => ?_⟩
      exact (habove' a (by omega)).trans (habove a ha)
    obtain ⟨m, s₂, hrun, hpc, hrax, hbase, hold, habove⟩ := hexit
    obtain ⟨n, s₃, hreturn, hrax', hbase', htop', hmemory⟩ :=
      returns_epilogue (hpc ▸ hepilogue) hbase hrax
    refine ⟨m + n, s₃, (run_add hrun n).trans hreturn, hrax', hbase'.trans hold, ?_, ?_⟩
    · rw [htop', htop, Int.sub_add_cancel]
    · intro a top' hsame ha
      cases htop.symm.trans hsame
      exact (congrFun hmemory a).trans (habove a ha)
  · refine h.faults fun s₁ ⟨_, _, hfollows⟩ => ?_
    have hend := hfollows fuel
    cases he : statements fuel with
    | fault =>
      rw [he] at hend
      exact hend
    | next σ => simp [he, Ending.result] at hfault
    | returned v => simp [he, Ending.result] at hfault
    | exhausted => simp [he, Ending.result] at hfault
  · refine running_of_lasts (h.lasts fun s₁ ⟨_, _, hfollows⟩ => ?_)
    have hlasts := hexhausted n
    have hend := hfollows n
    cases he : statements n with
    | exhausted =>
      rw [he] at hend
      exact hend
    | next σ => simp [he, Ending.result] at hlasts
    | returned v => simp [he, Ending.result] at hlasts
    | fault => simp [he, Ending.result] at hlasts

namespace Program

variable {p : Program} {lines : List Line}

/-- A call in an image of the assembly agrees with the program. -/
theorem agrees_of_assemble (h : p.assemble entry = .ok lines)
    (himage : image = lines.map Line.item ++ [Item.directive])
    (hnodup : (labelNames image).Nodup) : target? image entry = some 2 ∧
      ∀ (s : State) (top : Int) (env : Env), s.pc = 2 → s.registers .rsp = .address top →
        (∀ name slot, p.symbols.slot? name = some slot →
          s.memory (top - 8 - slot) = .word (env name)) →
        Agrees image s (p.interpret env) := by
  obtain ⟨body, n, hbody, rfl⟩ := assemble_eq_ok.mp h
  have hat : At image 0 (prologue entry p.symbols.frameSize ++ body ++ epilogue) :=
    at_of_eq_append (a := []) himage
  have hstart : target? image entry = some 2 :=
    target?_of_nodup hnodup hat.left.left.left.left.left.2.2.1
  refine ⟨hstart, fun s top env hpc htop hslots => ?_⟩
  have hepilogue := hat.right _ (Nat.zero_add _).symm
  have hexit := target?_of_at hnodup hepilogue
  have hprologue := reaches_prologue hat.left.left hpc htop hslots
  refine agrees_of_follows (t := p.symbols) hepilogue htop (hprologue.mono
    fun s₁ ⟨hpc₁, hholds, hold, habove⟩ => ⟨hold, habove, fun fuel => ?_⟩)
  have hatbody := hat.left.right s₁.pc (hpc₁.trans (Nat.zero_add _).symm)
  have hfollows : Follows image _ _ _ fuel s₁ _ _ :=
    Stmt.followsAll p.statements 0 body n ⟨env, 0⟩ s₁ hnodup hexit hbody hatbody hholds
  rwa [hpc₁, ← List.length_append] at hfollows

/-- Compilation preserves meaning: the text of a program can be read, and a call of its entry
agrees with the program, whatever the registers and the stack hold, if each slot gives its name
the word to start with. -/
theorem assembly_agrees (h : p.assemble entry = .ok lines) (hline : '\n' ∉ entry.toList)
    (hentry : ∀ l, .label l ∈ lines → l.render ≠ entry) :
    p.assembly entry = .ok (renderLines lines) ∧ ∃ image start,
      readText (renderLines lines) = some image ∧ target? image entry = some start ∧
      ∀ (s : State) (top : Int) (env : Env), s.pc = start → s.registers .rsp = .address top →
        (∀ name slot, p.symbols.slot? name = some slot →
          s.memory (top - 8 - slot) = .word (env name)) →
        Agrees image s (p.interpret env) := by
  have htext : p.assembly entry = .ok (renderLines lines) := by
    rw [assembly, h]
    rfl
  obtain ⟨hread, hnodup⟩ := readText_assembly h hline hentry
  obtain ⟨hstart, hagrees⟩ := agrees_of_assemble h rfl hnodup
  exact ⟨htext, _, 2, hread, hstart, hagrees⟩

end Program

def countdown : Program where
  statements := [.declare "x" (.integer 7) 0,
    .loop (.comparison .gt (.reference "x" 0) (.integer 0))
      [.assign "x" (.binary .sub (.reference "x" 0) (.integer 3)) 1]]
  symbols := ((SymbolTable.empty.declare "x" (.integer 7)).2.declare "x"
    (.binary .sub (.reference "x" 0) (.integer 3))).2

theorem exists_run_of_countdown : ∃ text image n s s', countdown.assembly "main" = .ok text ∧
    readText text = some image ∧ target? image "main" = some s.pc ∧
    run image n s = .returned s' ∧ s'.registers .rax = .word 0 := by
  have hassemble : countdown.assemble "main" = .ok _ := rfl
  obtain ⟨htext, image, start, hread, hstart, hagrees⟩ :=
    Program.assembly_agrees hassemble (by decide) fun l _ => l.render_ne (by decide)
  have hcall := hagrees
    ⟨start, fun r => if r = .rsp then .address 0 else .word 0, fun _ => .word 0, none⟩ 0
    (fun _ => 0) rfl rfl fun _ _ _ => rfl
  obtain ⟨n, s', hrun, hrax, -⟩ := hcall.value 4 0 (by rfl)
  exact ⟨_, image, n, _, s', htext, hread, hstart, hrun, hrax⟩

end TinyCompiler
