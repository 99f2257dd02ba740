import TinyCompiler.Proofs.StraightLine
import TinyCompiler.Proofs.WordArithmetic

/-! The code of an expression computes its value. -/
namespace TinyCompiler

open Lowering Machine

/-- What the code of an expression leaves alone: both pointers, and the stack from its top on. -/
structure Keeps (s s' : State) : Prop where
  base : s'.registers .rbp = s.registers .rbp
  top : s'.registers .rsp = s.registers .rsp
  memory : ∀ a top, s.registers .rsp = .address top → top ≤ a → s'.memory a = s.memory a

/-- The machine gets to a line with a value in `rax`, or faults where there is none. -/
def Computes (image : List Item) (s : State) (pc : Nat) : Option Int64 → Prop
  | some v => Reaches image s fun s' => s'.pc = pc ∧ s'.registers .rax = .word v ∧ Keeps s s'
  | none => Faults image s

variable {image : List Item} {s s' : State} {pc pc' : Nat} {a b : Int64}

namespace Keeps

theorem refl (s : State) : Keeps s s := ⟨rfl, rfl, fun _ _ _ _ => rfl⟩

theorem trans {s'' : State} (h : Keeps s s') (h' : Keeps s' s'') : Keeps s s'' := by
  refine ⟨h'.base.trans h.base, h'.top.trans h.top, fun a top htop hle => ?_⟩
  have htop' := h.top.trans htop
  exact (h'.memory a top htop' hle).trans (h.memory a top htop hle)

theorem of_memory (hbase : s'.registers .rbp = s.registers .rbp)
    (htop : s'.registers .rsp = s.registers .rsp) (hmemory : s'.memory = s.memory) : Keeps s s' :=
  ⟨hbase, htop, fun a _ _ _ => congrFun hmemory a⟩

end Keeps

namespace Computes

theorem of_follow {is : List Instruction} {v : Int64} (hat : At image s.pc (code is))
    (h : follow s is = some s') (hpc : pc = s.pc + is.length)
    (hrax : s'.registers .rax = .word v) (hkeeps : Keeps s s') : Computes image s pc (some v) :=
  reaches_follow hat h fun hlen => .refl ⟨hlen.trans hpc.symm, hrax, hkeeps⟩

/-- What comes behind code that keeps the stack counts from its start. -/
theorem of_reaches {o : Option Int64}
    (h : Reaches image s fun s' => Keeps s s' ∧ Computes image s' pc o) :
    Computes image s pc o := by
  cases o with
  | some v =>
    refine h.trans fun s' hs' => hs'.2.mono fun s'' hs'' => ?_
    exact ⟨hs''.1, hs''.2.1, hs'.1.trans hs''.2.2⟩
  | none => exact h.faults fun s' hs' => hs'.2

theorem bind {o : Option Int64} {f : Int64 → Option Int64} (h : Computes image s pc o)
    (hf : ∀ v s', s'.pc = pc → s'.registers .rax = .word v → Keeps s s' →
      Computes image s' pc' (f v)) :
    Computes image s pc' (o.bind f) := by
  cases o with
  | some v => exact of_reaches (h.mono fun s' ⟨hpc, hrax, hkeeps⟩ =>
      ⟨hkeeps, hf v s' hpc hrax hkeeps⟩)
  | none => exact h

theorem label {o : Option Int64} {l : Label} {rest : List Line} (h : Computes image s pc o)
    (hat : At image pc (.label l :: rest)) : Computes image s (pc + 1) o := by
  cases o with
  | some v =>
    refine h.trans fun s' ⟨hpc, hrax, hkeeps⟩ => ?_
    refine .of_step (step_label (hpc ▸ hat)) (.refl ⟨congrArg (· + 1) hpc, hrax, ?_⟩)
    exact hkeeps.trans (.of_memory rfl rfl rfl)
  | none => exact h

theorem jump {o : Option Int64} {l : Label} {rest : List Line} (h : Computes image s pc o)
    (hat : At image pc (.instruction (.jump l) :: rest))
    (htarget : target? image l.render = some pc') : Computes image s pc' o := by
  cases o with
  | some v =>
    refine h.trans fun s' ⟨hpc, hrax, hkeeps⟩ => ?_
    refine .of_step (step_jump (hpc ▸ hat) htarget) (.refl ⟨rfl, hrax, ?_⟩)
    exact hkeeps.trans (.of_memory rfl rfl rfl)
  | none => exact h

end Computes

theorem computes_immediate {value : Int} {rest : List Instruction}
    (hat : At image s.pc (code (.mov .rax (.immediate value) :: rest))) :
    Computes image s (s.pc + 1) (some (Int64.ofInt value)) :=
  .of_step (step_of_advance hat (advance_mov rfl)) (.refl ⟨rfl, rfl, .of_memory rfl rfl rfl⟩)

theorem computes_truth {right : Operand} {condition : Condition}
    (hat : At image s.pc (code [.cmp .rax right, .setByte condition, .widenByte]))
    (hrax : s.registers .rax = .word a) (hright : s.readWord right.operand = some b) :
    Computes image s (s.pc + 3) (some (Expr.truth ((Flags.compare a b).holds condition))) := by
  let f := Flags.compare a b
  let compared := ({ s with flags := some f } : State).next
  let marked := (compared.set .rax
    (.word (a &&& ~~~255 ||| if f.holds condition then 1 else 0))).next
  have hcmp : advance s .cmp [.register .rax, right.operand] = some { s with flags := some f } :=
    advance_cmp (readWord_register hrax) hright
  have hset : advance compared (.set condition) [.lowByte .rax] = some _ := advance_set rfl hrax
  have hwiden : advance marked .movzx [.register .rax, .lowByte .rax] = some _ :=
    advance_movzx rfl
  have h : follow s [.cmp .rax right, .setByte condition, .widenByte] = some _ :=
    (follow_cons hcmp).trans ((follow_cons hset).trans (follow_cons hwiden))
  refine .of_follow hat h rfl (congrArg Value.word ?_) (.of_memory rfl rfl rfl)
  exact setByte_widen a _

theorem UnaryOp.computes (op : UnaryOp) (hat : At image s.pc (code op.instructions))
    (hrax : s.registers .rax = .word a) :
    Computes image s (s.pc + op.instructions.length) (some (op.apply a)) := by
  cases op with
  | neg =>
    have h : follow s [.neg .rax] = some _ :=
      follow_cons (compute_register _ hrax (readWord_register hrax))
    exact .of_follow hat h rfl rfl (.of_memory rfl rfl rfl)
  | not =>
    have h := computes_truth hat hrax rfl
    have hzero : (Flags.compare a (Int64.ofInt 0)).holds .equal = decide (a = 0) :=
      Flags.holds_compare a 0 .eq
    rw [hzero] at h
    have htruth : Expr.truth (decide (a = 0)) = apply .not a := by simp [Expr.truth, apply]
    rwa [htruth] at h

theorem Comparison.computes (op : Comparison) (hat : At image s.pc (code op.instructions))
    (hrax : s.registers .rax = .word a) (hrdi : s.registers .rdi = .word b) :
    Computes image s (s.pc + op.instructions.length) (some (Expr.truth (op.holds a b))) := by
  have h := computes_truth hat hrax (readWord_register hrdi)
  rwa [Flags.holds_compare] at h

theorem computes_alu {i : Instruction} {f : Int64 → Int64 → Int64}
    (hat : At image s.pc (code [i])) (hrax : s.registers .rax = .word a)
    (hrdi : s.registers .rdi = .word b)
    (h : advance s i.operation.mnemonic i.operation.operands =
      s.compute f (.register .rax) (.register .rdi)) :
    Computes image s (s.pc + 1) (some (f a b)) := by
  rw [compute_register f hrax (readWord_register hrdi)] at h
  exact .of_follow hat (follow_cons h) rfl rfl (.of_memory rfl rfl rfl)

/-- A count goes to `rcx`, whose low byte shifts. -/
theorem computes_shift {op : ShiftOp} {f : Int64 → Int64 → Int64}
    (hat : At image s.pc (code [.mov .rcx (.register .rdi), .shift op .rax]))
    (hrax : s.registers .rax = .word a) (hrdi : s.registers .rdi = .word b)
    (h : ∀ t : State, advance t op.machine [.register .rax, .lowByte .rcx] =
      t.compute (fun w count => f w (count &&& 255 &&& 63)) (.register .rax) (.register .rcx)) :
    Computes image s (s.pc + 2) (some (f a (b &&& 63))) := by
  let moved := (s.set .rcx (.word b)).next
  have hmov : advance s .mov [.register .rcx, .register .rdi] = some (s.set .rcx (.word b)) :=
    advance_mov (congrArg some hrdi)
  have hshift := h moved
  have hshifted : moved.registers .rax = .word a := hrax
  have hcount : moved.readWord (.register .rcx) = some b := readWord_register rfl
  rw [compute_register _ hshifted hcount, count_and] at hshift
  exact .of_follow hat ((follow_cons hmov).trans (follow_cons hshift)) rfl rfl
    (.of_memory rfl rfl rfl)

/-- A dividend is widened first. -/
theorem computes_division {rest : List Instruction} {v : Int64}
    (hat : At image s.pc (code (.cqo :: .idiv .rdi :: rest)))
    (hrax : s.registers .rax = .word a) (hrdi : s.registers .rdi = .word b)
    (h : ∀ t : State, t.registers .rax = .word (a / b) → t.registers .rdx = .word (a % b) →
      At image t.pc (code rest) → Computes image t (t.pc + rest.length) (some v)) :
    Computes image s (s.pc + (rest.length + 1 + 1))
      (if b = 0 ∨ (a = Int64.minValue ∧ b = -1) then none else some v) := by
  let widened := (s.set .rdx (.word (if a < 0 then -1 else 0))).next
  let divided := ((({ widened with flags := none } : State).set .rax (.word (a / b))).set .rdx
    (.word (a % b))).next
  have hcqo : advance s .cqo [] = some (s.set .rdx (.word (if a < 0 then -1 else 0))) := by
    rw [advance, readWord_register hrax]
    rfl
  have hstep : step image s = .running widened := step_of_advance hat hcqo
  have hidiv : step image widened = divide widened b := by
    have hdivisor : widened.readWord (.register .rdi) = some b := readWord_register hrdi
    have hline : image[widened.pc]? = some (Line.instruction (.idiv .rdi)).item := hat.2.1
    rw [step, hline]
    simp only [Line.item, Instruction.operation, perform, hdivisor]
  rw [divide_pair a b widened hrax rfl] at hidiv
  refine .of_reaches (.of_step hstep (.refl ⟨.of_memory rfl rfl rfl, ?_⟩))
  split at hidiv
  next hfault =>
    rw [if_pos hfault]
    refine ⟨1, ?_⟩
    rw [run, hidiv]
  next hfault =>
    rw [if_neg hfault]
    refine .of_reaches (.of_step hidiv (.refl ⟨.of_memory rfl rfl rfl, ?_⟩))
    have hrest := h divided rfl rfl hat.2.2
    have hpc : s.pc + (rest.length + 1 + 1) = divided.pc + rest.length := by
      have hdivided : divided.pc = s.pc + 1 + 1 := rfl
      omega
    rwa [hpc]

theorem BinaryOp.computes (op : BinaryOp) (hat : At image s.pc (code op.instructions))
    (hrax : s.registers .rax = .word a) (hrdi : s.registers .rdi = .word b) :
    Computes image s (s.pc + op.instructions.length) (op.apply a b) := by
  cases op with
  | add => exact computes_alu hat hrax hrdi rfl
  | sub => exact computes_alu hat hrax hrdi rfl
  | or => exact computes_alu hat hrax hrdi rfl
  | xor => exact computes_alu hat hrax hrdi rfl
  | mul => exact computes_alu hat hrax hrdi rfl
  | and => exact computes_alu hat hrax hrdi rfl
  | andNot =>
    have hnot : advance s .not [.register .rdi] = some (s.set .rdi (.word (~~~b))) := by
      rw [advance, readWord_register hrdi]
      rfl
    refine .of_reaches (.of_step (step_of_advance hat hnot) (.refl ⟨.of_memory rfl rfl rfl, ?_⟩))
    exact computes_alu hat.2 hrax rfl rfl
  | shl => exact computes_shift hat hrax hrdi fun _ => rfl
  | shr => exact computes_shift hat hrax hrdi fun _ => rfl
  | div =>
    refine computes_division hat hrax hrdi fun t hquotient _ _ => ?_
    exact .refl ⟨rfl, hquotient, .refl t⟩
  | rem =>
    refine computes_division hat hrax hrdi fun t _ hrest hat' => ?_
    have hmov : advance t .mov [.register .rax, .register .rdx] = some _ :=
      advance_mov (congrArg some hrest)
    exact .of_follow hat' (follow_cons hmov) rfl rfl (.of_memory rfl rfl rfl)

theorem SymbolTable.slot?_le {t : SymbolTable} {name : String} {slot : Nat}
    (h : t.slot? name = some slot) : slot ≤ t.frameSize := by
  obtain ⟨i, hi, rfl⟩ := Option.map_eq_some_iff.mp h
  have hlt := (List.idxOf?_eq_some_iff.mp hi).1
  rw [names, List.length_map] at hlt
  rw [frameSize, size]
  omega

/-- The frame of a function below its base: every name has its word in its slot, and the stack
goes on below the slots. -/
structure Frame (t : SymbolTable) (env : Env) (base : Int) (s : State) : Prop where
  pointer : s.registers .rbp = .address base
  top : ∃ top, s.registers .rsp = .address top ∧ top ≤ base - t.frameSize
  slots : ∀ name slot, t.slot? name = some slot → s.memory (base - slot) = .word (env name)

variable {t : SymbolTable} {env : Env} {base : Int}

theorem Frame.of_keeps (h : Frame t env base s) (hkeeps : Keeps s s') : Frame t env base s' := by
  obtain ⟨top, htop, hle⟩ := h.top
  refine ⟨hkeeps.base.trans h.pointer, ⟨top, hkeeps.top.trans htop, hle⟩, fun name slot hslot => ?_⟩
  have hmem := hkeeps.memory (base - slot) top htop (by have := t.slot?_le hslot; omega)
  exact hmem.trans (h.slots name slot hslot)

/-- The top of the stack is at or below all slots, and each slot holds the word of its name. This is
all of a frame that expressions need. -/
def Readable (t : SymbolTable) (env : Env) (s : State) : Prop :=
  ∃ top, s.registers .rsp = .address top ∧ ∀ name slot, t.slot? name = some slot →
    ∃ base, s.registers .rbp = .address base ∧ top ≤ base - slot ∧
      s.memory (base - slot) = .word (env name)

theorem Frame.readable (h : Frame t env base s) : Readable t env s := by
  obtain ⟨top, htop, hle⟩ := h.top
  refine ⟨top, htop, fun name slot hslot => ⟨base, h.pointer, ?_, h.slots name slot hslot⟩⟩
  have := t.slot?_le hslot
  omega

theorem Readable.of_keeps (h : Readable t env s) (hkeeps : Keeps s s') : Readable t env s' := by
  obtain ⟨top, htop, hslots⟩ := h
  refine ⟨top, hkeeps.top.trans htop, fun name slot hslot => ?_⟩
  obtain ⟨base, hbase, hle, hword⟩ := hslots name slot hslot
  exact ⟨base, hkeeps.base.trans hbase, hle, (hkeeps.memory _ top htop hle).trans hword⟩

/-- A value waits on the stack while another one is computed. -/
theorem computes_operands {l r : List Line} {is : List Instruction} {oa ob : Option Int64}
    {f : Int64 → Int64 → Option Int64}
    (hat : At image s.pc (Expr.operands l r ++ code is)) (hread : Readable t env s)
    (hl : At image s.pc l → Computes image s (s.pc + l.length) oa)
    (hr : ∀ s', At image s'.pc r → Readable t env s' →
      Computes image s' (s'.pc + r.length) ob)
    (hop : ∀ a b s', At image s'.pc (code is) → s'.registers .rax = .word a →
      s'.registers .rdi = .word b → Computes image s' (s'.pc + is.length) (f a b)) :
    Computes image s (s.pc + (Expr.operands l r ++ code is).length)
      (oa.bind fun a => ob.bind fun b => f a b) := by
  obtain ⟨hoperands, hatop⟩ := at_append.mp hat
  obtain ⟨hatl, hrest⟩ := at_append.mp hoperands
  obtain ⟨hatr, hatpop⟩ := at_append.mp hrest.2
  refine (hl hatl).bind fun a s₁ hpc₁ hrax₁ hkeeps₁ => ?_
  obtain ⟨top, htop, hslots⟩ := hread.of_keeps hkeeps₁
  let pushed := ((s₁.set .rsp (.address (top - 8))).store (top - 8) (s₁.registers .rax)).next
  have hpushAt : At image s₁.pc (.instruction (.push .rax) :: _) := hpc₁ ▸ hrest
  have hpush : step image s₁ = .running pushed := step_of_advance hpushAt (advance_push htop)
  have hread₂ : Readable t env pushed := by
    refine ⟨top - 8, rfl, fun name slot hslot => ?_⟩
    obtain ⟨base, hbase, hle, hword⟩ := hslots name slot hslot
    have hne : base - slot ≠ top - 8 := by omega
    exact ⟨base, hbase, by omega, (if_neg hne).trans hword⟩
  have hpc₂ : pushed.pc = s.pc + l.length + 1 := congrArg (· + 1) hpc₁
  have hright := hr pushed (hpc₂ ▸ hatr) hread₂
  cases ob with
  | none =>
    obtain ⟨n, hn⟩ := hright
    exact ⟨n + 1, (run_succ_of_step hpush n).trans hn⟩
  | some b =>
    refine .of_reaches (.of_step hpush (hright.trans fun s₂ ⟨hpc₃, hrax₃, hkeeps₃⟩ => ?_))
    have hwaiting : s₂.memory (top - 8) = .word a := by
      have hkept := hkeeps₃.memory (top - 8) (top - 8) rfl le_rfl
      exact hkept.trans ((if_pos rfl).trans hrax₁)
    let moved := (s₂.set .rdi (.word b)).next
    have hmov : advance s₂ .mov [.register .rdi, .register .rax] = some (s₂.set .rdi (.word b)) :=
      advance_mov (congrArg some hrax₃)
    have hpop : advance moved .pop [.register .rax] = some _ := advance_pop hkeeps₃.top
    have hfollow : follow s₂ [.mov .rdi (.register .rax), .pop .rax] = some _ :=
      (follow_cons hmov).trans (follow_cons hpop)
    refine reaches_follow (hpc₃ ▸ hpc₂ ▸ hatpop) hfollow fun hpc₄ => .refl ⟨?_, ?_⟩
    · refine ⟨hkeeps₃.base, ?_, fun c top' htop' hle' => ?_⟩
      · rw [htop]
        exact congrArg Value.address (Int.sub_add_cancel top 8)
      · cases htop.symm.trans htop'
        have hkept := hkeeps₃.memory c (top - 8) rfl (by omega)
        exact hkept.trans (if_neg (by omega))
    · have hend : s.pc + (Expr.operands l r).length =
          s₂.pc + [Instruction.mov .rdi (.register .rax), .pop .rax].length := by
        rw [hpc₃, hpc₂]
        simp only [Expr.operands, length_code, List.length_append, List.length_cons]
        omega
      have h := hop a b _ (hpc₄ ▸ hend ▸ hatop) hwaiting rfl
      rw [hpc₄, ← hend] at h
      rw [List.length_append, length_code, ← Nat.add_assoc]
      exact h

namespace Connective

def decides (op : Connective) (v : Int64) : Bool := (Flags.compare v 0).holds op.exitCondition

theorem eval_eq (op : Connective) (left right : Expr) :
    (Expr.connective op left right).eval env =
      (left.eval env).bind fun a => if op.decides a then some (Int64.ofInt op.decided)
        else (right.eval env).bind fun b =>
          some (Int64.ofInt (if op.decides b then op.decided else 1 - op.decided)) := by
  have hand (v : Int64) : decides .and v = decide (v = 0) := Flags.zero_compare v 0
  have hor (v : Int64) : decides .or v = !decide (v = 0) :=
    congrArg (fun zero => !zero) (Flags.zero_compare v 0)
  cases op with
  | and =>
    refine congrArg (Option.bind (left.eval env)) (funext fun a => ?_)
    by_cases ha : a = 0
    · simp [hand, ha, decided]
    · simp only [hand, ha, Option.map_eq_bind, if_false, decide_false, Bool.false_eq_true]
      refine congrArg (Option.bind (right.eval env)) (funext fun b => ?_)
      by_cases hb : b = 0 <;> simp [hb, Expr.truth, decided]
  | or =>
    refine congrArg (Option.bind (left.eval env)) (funext fun a => ?_)
    by_cases ha : a = 0
    · simp only [hor, ha, Option.map_eq_bind, if_true, decide_true, Bool.not_true, if_false,
        Bool.false_eq_true]
      refine congrArg (Option.bind (right.eval env)) (funext fun b => ?_)
      by_cases hb : b = 0 <;> simp [hb, Expr.truth, decided]
    · simp [hor, ha, decided]

/-- The operands decide in turn, and the right one is computed only if the left one does not. -/
theorem computes (op : Connective) {n : Nat} {l r : List Line} {oa ob : Option Int64}
    (hnodup : (labelNames image).Nodup) (hat : At image s.pc (op.frame n l r))
    (hl : At image s.pc l → Computes image s (s.pc + l.length) oa)
    (hr : ∀ s', At image s'.pc r → Keeps s s' → Computes image s' (s'.pc + r.length) ob) :
    Computes image s (s.pc + (op.frame n l r).length)
      (oa.bind fun a => if op.decides a then some (Int64.ofInt op.decided)
        else ob.bind fun b =>
          some (Int64.ofInt (if op.decides b then op.decided else 1 - op.decided))) := by
  let short := s.pc + l.length + 2 + r.length + 2 + 2
  have hend : s.pc + (op.frame n l r).length = short + 2 + 1 := by
    simp only [frame, List.length_append, length_code, List.length_cons, List.length_nil, short]
    omega
  have hatl := hat.left.left.left.left.left.left
  have hleft := hat.left.left.left.left.left.right _ rfl
  have hatr := hat.left.left.left.left.right (s.pc + l.length + 2) (by simp [Nat.add_assoc])
  have hright := hat.left.left.left.right (s.pc + l.length + 2 + r.length)
    (by simp [Nat.add_assoc])
  have hdone := hat.left.left.right (s.pc + l.length + 2 + r.length + 2)
    (by simp [Nat.add_assoc])
  have hshort := hat.left.right short (by simp [short, Nat.add_assoc])
  have hfinish := hat.right (short + 2) (by simp [short, Nat.add_assoc])
  have htarget := target?_of_at hnodup hshort
  rw [hend]
  have hdecided (s' : State) (hpc : s'.pc = short) :
      Computes image s' (short + 2 + 1) (some (Int64.ofInt op.decided)) := by
    have hnext : s'.next.pc = short + 1 := congrArg (· + 1) hpc
    have hmov := computes_immediate (hnext ▸ hshort.2)
    rw [hnext] at hmov
    exact .of_reaches (.of_step (step_label (hpc ▸ hshort))
      (.refl ⟨.of_memory rfl rfl rfl, hmov.label hfinish⟩))
  refine (hl hatl).bind fun a s₁ hpc₁ hrax₁ hkeeps₁ => .of_reaches ?_
  refine (reaches_test (hpc₁ ▸ hleft) hrax₁ htarget).mono fun s₂ ⟨hpc₂, hregisters₂, hmemory₂⟩ => ?_
  have hkeeps₂ : Keeps s₁ s₂ := .of_memory (by rw [hregisters₂]) (by rw [hregisters₂]) hmemory₂
  refine ⟨hkeeps₂, ?_⟩
  by_cases ha : op.decides a
  · rw [if_pos ha]
    exact hdecided s₂ (hpc₂.trans (if_pos ha))
  · rw [if_neg ha]
    replace hpc₂ : s₂.pc = s.pc + l.length + 2 := by
      rw [hpc₂, ← hpc₁]
      exact if_neg ha
    refine (hr s₂ (hpc₂ ▸ hatr) (hkeeps₁.trans hkeeps₂)).bind
      fun b s₃ hpc₃ hrax₃ _ => .of_reaches ?_
    rw [hpc₂] at hpc₃
    refine (reaches_test (hpc₃ ▸ hright) hrax₃ htarget).mono
      fun s₄ ⟨hpc₄, hregisters₄, hmemory₄⟩ => ?_
    refine ⟨.of_memory (by rw [hregisters₄]) (by rw [hregisters₄]) hmemory₄, ?_⟩
    by_cases hb : op.decides b
    · rw [if_pos hb]
      exact hdecided s₄ (hpc₄.trans (if_pos hb))
    · rw [if_neg hb]
      replace hpc₄ : s₄.pc = s.pc + l.length + 2 + r.length + 2 := by
        rw [hpc₄, ← hpc₃]
        exact if_neg hb
      have hmov := computes_immediate (hpc₄ ▸ hdone)
      rw [hpc₄] at hmov
      exact (hmov.jump hdone.2 (target?_of_at hnodup hfinish)).label hfinish

end Connective

/-- The code of an expression computes its value. -/
theorem Expr.computes {e : Expr} {n n' : Nat} {block : List Line}
    (hnodup : (labelNames image).Nodup) (hlower : Gives (e.lower t) n block n')
    (hat : At image s.pc block) (hread : Readable t env s) :
    Computes image s (s.pc + block.length) (e.eval env) := by
  induction e generalizing s n block n' with
  | integer value =>
    obtain ⟨rfl, rfl⟩ := lower_integer.mp hlower
    have h := computes_immediate hat
    rwa [Int64.ofInt_toInt] at h
  | boolean value =>
    obtain ⟨rfl, rfl⟩ := lower_boolean.mp hlower
    have h := computes_immediate hat
    cases value <;> exact h
  | reference name binding =>
    obtain ⟨-, slot, hslot, rfl, rfl⟩ := lower_reference.mp hlower
    obtain ⟨_, -, hslots⟩ := hread
    obtain ⟨base, hbase, -, hword⟩ := hslots name slot hslot
    have hload : s.read (.memory .rbp (-slot)) = some (.word (env name)) := by
      rw [State.read, State.address?, hbase]
      exact congrArg some hword
    exact .of_follow hat (follow_cons (advance_mov hload)) rfl rfl (.of_memory rfl rfl rfl)
  | unary op operand ih =>
    obtain ⟨o, ho, rfl⟩ := lower_unary.mp hlower
    rw [eval, Option.map_eq_bind]
    refine (ih ho hat.left hread).bind fun v s' hpc hrax _ => ?_
    have h := op.computes (hat.right _ hpc) hrax
    rw [hpc, Nat.add_assoc] at h
    rw [List.length_append, length_code]
    exact h
  | binary op left right ihl ihr =>
    obtain ⟨l, m, hl, r, hr, rfl⟩ := lower_binary.mp hlower
    refine computes_operands hat hread (fun hat => ihl hl hat hread)
      (fun s' hat hread => ihr hr hat hread) fun a b s' hat hrax hrdi => ?_
    exact op.computes hat hrax hrdi
  | comparison op left right ihl ihr =>
    obtain ⟨l, m, hl, r, hr, rfl⟩ := lower_comparison.mp hlower
    simp only [eval, Option.map_eq_bind]
    refine computes_operands hat hread (fun hat => ihl hl hat hread)
      (fun s' hat hread => ihr hr hat hread) fun a b s' hat hrax hrdi => ?_
    exact op.computes hat hrax hrdi
  | connective op left right ihl ihr =>
    obtain ⟨l, m, hl, r, hr, rfl⟩ := lower_connective.mp hlower
    rw [Connective.eval_eq]
    exact op.computes hnodup hat (fun hat => ihl hl hat hread)
      fun s' hat hkeeps => ihr hr hat (hread.of_keeps hkeeps)

end TinyCompiler
