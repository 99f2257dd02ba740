import TinyCompiler.Proofs.ExpressionCode

/-! The code of statements does what they mean, whatever way they end. -/
namespace TinyCompiler

open Lowering Machine

namespace SymbolTable

variable {t : SymbolTable} {name name' : String} {slot slot' : Nat}

theorem slot?_pos (h : t.slot? name = some slot) : 0 < slot := by
  obtain ⟨i, -, rfl⟩ := Option.map_eq_some_iff.mp h
  omega

theorem slot?_injective (h : t.slot? name = some slot) (h' : t.slot? name' = some slot) :
    name = name' := by
  obtain ⟨i, hi, hslot⟩ := Option.map_eq_some_iff.mp h
  obtain ⟨i', hi', hslot'⟩ := Option.map_eq_some_iff.mp h'
  have heq : i = i' := by omega
  rw [← heq] at hi'
  obtain ⟨_, hname, -⟩ := List.idxOf?_eq_some_iff.mp hi
  obtain ⟨_, hname', -⟩ := List.idxOf?_eq_some_iff.mp hi'
  exact hname.symm.trans hname'

end SymbolTable

/-- Between two statements the words of the names are in their slots, and the last value is in
`rax`. -/
structure Holds (t : SymbolTable) (σ : Store) (base : Int) (s : State) : Prop where
  frame : Frame t σ.env base s
  last : s.registers .rax = .word σ.last

def Above (base : Int) (s s' : State) : Prop := ∀ a, base ≤ a → s'.memory a = s.memory a

/-- From a state the code of statements ends as they do: it gets to the line behind it, or to the
exit with the value to return, or it faults, or it runs on as long as the fuel lasts. -/
def Follows (image : List Item) (t : SymbolTable) (base : Int) (exit fuel : Nat) (s : State)
    (pc : Nat) : Ending → Prop
  | .next σ => Reaches image s fun s' => s'.pc = pc ∧ Holds t σ base s' ∧ Above base s s'
  | .returned v => Reaches image s fun s' => s'.pc = exit ∧ s'.registers .rax = .word v ∧
      s'.registers .rbp = .address base ∧ Above base s s'
  | .fault => Faults image s
  | .exhausted => Lasts image s fuel

variable {image : List Item} {t : SymbolTable} {base : Int} {exit fuel : Nat} {s s' : State}
  {pc pc' : Nat} {σ : Store} {e : Ending}

namespace Above

theorem refl (base : Int) (s : State) : Above base s s := fun _ _ => rfl

theorem trans {s'' : State} (h : Above base s s') (h' : Above base s' s'') : Above base s s'' :=
  fun a ha => (h' a ha).trans (h a ha)

theorem of_memory (h : s'.memory = s.memory) : Above base s s' := fun a _ => congrFun h a

end Above

theorem Frame.above {env : Env} (h : Frame t env base s) (hkeeps : Keeps s s') :
    Above base s s' := by
  obtain ⟨top, htop, hle⟩ := h.top
  exact fun a ha => hkeeps.memory a top htop (by omega)

/-- Storing a word in the slot of a name. -/
theorem Frame.store {env : Env} {name : String} {slot : Nat} {v : Int64} (h : Frame t env base s)
    (hslot : t.slot? name = some slot) : Frame t
      (fun name' => if name' = name then v else env name') base
      (s.store (base - slot) (.word v)) := by
  refine ⟨h.pointer, h.top, fun name' slot' hslot' => ?_⟩
  by_cases hname : name' = name
  · rw [hname] at hslot'
    cases hslot.symm.trans hslot'
    rw [if_pos hname]
    exact if_pos rfl
  · have hne : base - slot' ≠ base - slot := by
      intro heq
      have hsame : slot' = slot := by omega
      rw [hsame] at hslot'
      exact hname (t.slot?_injective hslot' hslot)
    rw [if_neg hname]
    exact (if_neg hne).trans (h.slots name' slot' hslot')

theorem Holds.congr (h : Holds t σ base s) (hregisters : s'.registers = s.registers)
    (hmemory : s'.memory = s.memory) : Holds t σ base s' := by
  refine ⟨h.frame.of_keeps (.of_memory ?_ ?_ hmemory), ?_⟩
  · rw [hregisters]
  · rw [hregisters]
  · rw [hregisters]
    exact h.last

namespace Follows

theorem of_reaches
    (h : Reaches image s fun s' => Above base s s' ∧ Follows image t base exit fuel s' pc e) :
    Follows image t base exit fuel s pc e := by
  cases e with
  | next σ =>
    refine h.trans fun s' ⟨habove, hs'⟩ => hs'.mono fun s'' ⟨hpc, hholds, habove'⟩ => ?_
    exact ⟨hpc, hholds, habove.trans habove'⟩
  | returned v =>
    refine h.trans fun s' ⟨habove, hs'⟩ => hs'.mono fun s'' ⟨hpc, hrax, hbase, habove'⟩ => ?_
    exact ⟨hpc, hrax, hbase, habove.trans habove'⟩
  | fault => exact h.faults fun s' hs' => hs'.2
  | exhausted => exact h.lasts fun s' hs' => hs'.2

theorem andThen {f : Store → Ending} (h : Follows image t base exit fuel s pc e)
    (hf : ∀ σ s', s'.pc = pc → Holds t σ base s' → Follows image t base exit fuel s' pc' (f σ)) :
    Follows image t base exit fuel s pc' (e.andThen f) := by
  cases e with
  | next σ =>
    exact of_reaches (h.mono fun s' ⟨hpc, hholds, habove⟩ => ⟨habove, hf σ s' hpc hholds⟩)
  | returned v => exact h
  | fault => exact h
  | exhausted => exact h

theorem mono_fuel {n : Nat} (h : Follows image t base exit fuel s pc e) (hn : n ≤ fuel) :
    Follows image t base exit n s pc e := by
  cases e with
  | next σ => exact h
  | returned v => exact h
  | fault => exact h
  | exhausted =>
    obtain ⟨k, s', hk, hrun⟩ := h
    exact ⟨k, s', hn.trans hk, hrun⟩

theorem of_step (hstep : step image s = .running s') (habove : Above base s s')
    (h : Follows image t base exit fuel s' pc e) :
    Follows image t base exit (fuel + 1) s pc e := by
  cases e with
  | next σ => exact of_reaches (.of_step hstep (.refl ⟨habove, h⟩))
  | returned v => exact of_reaches (.of_step hstep (.refl ⟨habove, h⟩))
  | fault => exact of_reaches (.of_step hstep (.refl ⟨habove, h⟩))
  | exhausted =>
    obtain ⟨k, s'', hk, hrun⟩ := h
    exact ⟨k + 1, s'', Nat.succ_le_succ hk, (run_succ_of_step hstep k).trans hrun⟩

theorem label {l : Label} {rest : List Line} (h : Follows image t base exit fuel s pc e)
    (hat : At image pc (.label l :: rest)) : Follows image t base exit fuel s (pc + 1) e := by
  cases e with
  | next σ =>
    refine h.trans fun s' ⟨hpc, hholds, habove⟩ => ?_
    exact .of_step (step_label (hpc ▸ hat))
      (.refl ⟨congrArg (· + 1) hpc, hholds.congr rfl rfl, habove⟩)
  | returned v => exact h
  | fault => exact h
  | exhausted => exact h

theorem jump {l : Label} {rest : List Line} (h : Follows image t base exit fuel s pc e)
    (hat : At image pc (.instruction (.jump l) :: rest))
    (htarget : target? image l.render = some pc') :
    Follows image t base exit fuel s pc' e := by
  cases e with
  | next σ =>
    refine h.trans fun s' ⟨hpc, hholds, habove⟩ => ?_
    exact .of_step (step_jump (hpc ▸ hat) htarget) (.refl ⟨rfl, hholds.congr rfl rfl, habove⟩)
  | returned v => exact h
  | fault => exact h
  | exhausted => exact h

theorem evaluate {value : Expr} {block : List Line} {n n' : Nat} {f : Int64 → Store → Ending}
    (hnodup : (labelNames image).Nodup) (hlower : Gives (value.lower t) n block n')
    (hat : At image s.pc block) (hholds : Holds t σ base s)
    (hf : ∀ v s', s'.pc = s.pc + block.length → Holds t { σ with last := v } base s' →
      Follows image t base exit fuel s' pc' (f v { σ with last := v })) :
    Follows image t base exit fuel s pc' (Stmt.evaluate value σ f) := by
  have h := Expr.computes hnodup hlower hat hholds.frame.readable
  rw [Stmt.evaluate]
  cases hv : value.eval σ.env with
  | some v =>
    rw [hv] at h
    refine of_reaches (h.mono fun s' hs' => ?_)
    obtain ⟨hpc, hrax, hkeeps⟩ := hs'
    exact ⟨hholds.frame.above hkeeps, hf v s' hpc ⟨hholds.frame.of_keeps hkeeps, hrax⟩⟩
  | none =>
    rw [hv] at h
    exact h

/-- Where the last value is zero the code goes on at a label, and else behind the test. -/
theorem test {l : Label} {pc₀ : Nat} {e₀ e₁ : Ending}
    (hat : At image s.pc (code [.cmp .rax (.immediate 0), .jumpIf .equal l]))
    (hholds : Holds t σ base s) (htarget : target? image l.render = some pc₀)
    (hzero : ∀ s', s'.pc = pc₀ → Holds t σ base s' → Follows image t base exit fuel s' pc e₀)
    (hother : ∀ s', s'.pc = s.pc + 2 → Holds t σ base s' →
      Follows image t base exit fuel s' pc e₁) :
    Follows image t base exit fuel s pc (if σ.last = 0 then e₀ else e₁) := by
  have hcompare : (Flags.compare σ.last 0).holds .equal = decide (σ.last = 0) :=
    Flags.zero_compare σ.last 0
  refine of_reaches ((reaches_test hat hholds.last htarget).mono
    fun s' ⟨hpc, hregisters, hmemory⟩ => ⟨.of_memory hmemory, ?_⟩)
  have hholds' := hholds.congr hregisters hmemory
  rw [hcompare] at hpc
  by_cases h : σ.last = 0
  · rw [if_pos h]
    exact hzero s' (hpc.trans (if_pos (decide_eq_true h))) hholds'
  · rw [if_neg h]
    exact hother s' (hpc.trans (if_neg (mt of_decide_eq_true h))) hholds'

theorem branch {condition : Expr} {c b a : List Line} {n n' number : Nat}
    {consequent alternate : Store → Ending}
    (hnodup : (labelNames image).Nodup) (hlower : Gives (condition.lower t) n c n')
    (hat : At image s.pc (branch number c b a)) (hholds : Holds t σ base s)
    (hconsequent : ∀ σ s', At image s'.pc b → Holds t σ base s' →
      Follows image t base exit fuel s' (s'.pc + b.length) (consequent σ))
    (halternate : ∀ σ s', At image s'.pc a → Holds t σ base s' →
      Follows image t base exit fuel s' (s'.pc + a.length) (alternate σ)) :
    Follows image t base exit fuel s (s.pc + (TinyCompiler.branch number c b a).length)
      (Stmt.evaluate condition σ fun v σ =>
        if v = 0 then alternate σ else consequent σ) := by
  let otherwise := s.pc + c.length + 2 + b.length + 1
  let finish := otherwise + 1 + a.length
  have hend : s.pc + (TinyCompiler.branch number c b a).length = finish + 1 := by
    simp only [TinyCompiler.branch, List.length_append, length_code, List.length_cons,
      List.length_nil, otherwise, finish]
    omega
  have hatc := hat.left.left.left.left.left
  have htest := hat.left.left.left.left.right _ rfl
  have hatb := hat.left.left.left.right (s.pc + c.length + 2) (by simp [Nat.add_assoc])
  have hjump := hat.left.left.right (s.pc + c.length + 2 + b.length) (by simp [Nat.add_assoc])
  have hotherwise := hat.left.right otherwise (by simp [otherwise, Nat.add_assoc])
  have hfinish := hat.right finish (by simp [otherwise, finish]; omega)
  rw [hend]
  refine evaluate hnodup hlower hatc hholds fun v s₁ hpc₁ hholds₁ => ?_
  refine test (hpc₁ ▸ htest) hholds₁ (target?_of_at hnodup hotherwise)
    (fun s₂ hpc₂ hholds₂ => ?_) fun s₂ hpc₂ hholds₂ => ?_
  · have hnext : s₂.next.pc = otherwise + 1 := congrArg (· + 1) hpc₂
    have h := halternate _ s₂.next (hnext ▸ hotherwise.2) (hholds₂.congr rfl rfl)
    rw [hnext] at h
    exact of_reaches (.of_step (step_label (hpc₂ ▸ hotherwise))
      (.refl ⟨.of_memory rfl, h.label hfinish⟩))
  · rw [hpc₁] at hpc₂
    have h := hconsequent _ s₂ (hpc₂ ▸ hatb) hholds₂
    rw [hpc₂] at h
    exact (h.jump hjump (target?_of_at hnodup hfinish)).label hfinish

/-- A turn goes from the first label back to it, or behind the last one. -/
theorem cycle {condition : Expr} {c b : List Line} {n n' number k : Nat} {body : Store → Ending}
    (hnodup : (labelNames image).Nodup) (hlower : Gives (condition.lower t) n c n')
    (hat : At image pc (cycle number c b)) (hpc : s.pc = pc) (hholds : Holds t σ base s)
    (hbody : ∀ σ s', At image s'.pc b → Holds t σ base s' →
      Follows image t base exit fuel s' (s'.pc + b.length) (body σ)) (hk : k ≤ fuel) :
    Follows image t base exit k s (pc + (TinyCompiler.cycle number c b).length)
      (Stmt.turn condition body k σ) := by
  let test := pc + 1 + c.length
  let jump := test + 2 + b.length
  have hend : pc + (TinyCompiler.cycle number c b).length = jump + 1 + 1 := by
    simp only [TinyCompiler.cycle, List.length_append, length_code, List.length_cons,
      List.length_nil, test, jump]
    omega
  have hbegin := hat.left.left.left.left
  have htest := hat.left.left.left.right test (by simp [test]; omega)
  have hatb := hat.left.left.right (test + 2) (by simp [test]; omega)
  have hjump := hat.left.right jump (by simp [test, jump]; omega)
  have hfinish := hat.right (jump + 1) (by simp [test, jump]; omega)
  rw [hend]
  induction k generalizing s σ with
  | zero => exact ⟨0, s, le_rfl, rfl⟩
  | succ k ih =>
    have hnext : s.next.pc = pc + 1 := congrArg (· + 1) hpc
    refine of_step (step_label (hpc ▸ hbegin)) (.of_memory rfl) ?_
    rw [Stmt.turn]
    refine evaluate hnodup hlower (hnext ▸ hbegin.2) (hholds.congr rfl rfl)
      fun v s₁ hpc₁ hholds₁ => ?_
    rw [hnext] at hpc₁
    refine Follows.test (hpc₁ ▸ htest) hholds₁ (target?_of_at hnodup hfinish)
      (fun s₂ hpc₂ hholds₂ => ?_) fun s₂ hpc₂ hholds₂ => ?_
    · have h : Follows image t base exit k s₂ (jump + 1) (.next _) :=
        .refl ⟨hpc₂, hholds₂, .refl base s₂⟩
      exact h.label hfinish
    · rw [hpc₁] at hpc₂
      have h := hbody _ s₂ (hpc₂ ▸ hatb) hholds₂
      rw [hpc₂] at h
      have hback := (h.jump hjump (target?_of_at hnodup hbegin)).mono_fuel (by omega : k ≤ fuel)
      exact hback.andThen fun σ' s' hpc' hholds' => ih hpc' hholds' (by omega)

end Follows

namespace Stmt

theorem follows_store {name : String} {value : Expr} {block : List Line} {n n' : Nat}
    (hnodup : (labelNames image).Nodup) (hlower : Gives (lowerStore t name value) n block n')
    (hat : At image s.pc block) (hholds : Holds t σ base s) :
    Follows image t base exit fuel s (s.pc + block.length) (evaluate value σ fun v σ =>
      .next { σ with env := fun name' => if name' = name then v else σ.env name' }) := by
  obtain ⟨v, hv, slot, hslot, rfl⟩ := gives_lowerStore.mp hlower
  refine .evaluate hnodup hv hat.left hholds fun v₁ s₁ hpc₁ hholds₁ => ?_
  have hat₁ := hat.right s₁.pc hpc₁
  have hmov : advance s₁ .mov [.memory .rbp (-slot), .register .rax] =
      some (s₁.store (base - slot) (.word v₁)) := by
    simp only [advance, State.read, hholds₁.last, Option.bind_some, State.write, State.address?,
      hholds₁.frame.pointer, Option.map_some, Int.sub_eq_add_neg]
  refine Reaches.of_step (step_of_advance hat₁ hmov) (.refl ⟨?_, ⟨?_, hholds₁.last⟩, ?_⟩)
  · rw [List.length_append, ← Nat.add_assoc, ← hpc₁]
    rfl
  · exact (hholds₁.frame.store hslot).of_keeps (.of_memory rfl rfl rfl)
  · have hpos := t.slot?_pos hslot
    exact fun a ha => if_neg (by omega)

mutual

theorem follows (stmt : Stmt) (n : Nat) (block : List Line) (n' : Nat) (σ : Store) (s : State)
    (hnodup : (labelNames image).Nodup) (hexit : target? image Label.exit.render = some exit)
    (hlower : Gives (stmt.lower t) n block n') (hat : At image s.pc block)
    (hholds : Holds t σ base s) :
    Follows image t base exit fuel s (s.pc + block.length) (stmt.exec fuel σ) := by
  cases stmt with
  | expr value =>
    rw [exec]
    exact .evaluate hnodup hlower hat hholds fun v s₁ hpc₁ hholds₁ =>
      .refl ⟨hpc₁, hholds₁, .refl base s₁⟩
  | declare name value binding =>
    rw [exec]
    exact follows_store hnodup hlower hat hholds
  | assign name value binding =>
    rw [exec]
    exact follows_store hnodup hlower hat hholds
  | ret value =>
    obtain ⟨v, hv, rfl⟩ := lower_ret.mp hlower
    rw [exec]
    refine .evaluate hnodup hv hat.left hholds fun v₁ s₁ hpc₁ hholds₁ => ?_
    have hjump := step_jump (hat.right s₁.pc hpc₁) hexit
    exact Reaches.of_step hjump
      (.refl ⟨rfl, hholds₁.last, hholds₁.frame.pointer, .of_memory rfl⟩)
  | ifThen condition consequent =>
    obtain ⟨c, m, hc, b, hb, rfl⟩ := lower_ifThen.mp hlower
    rw [exec]
    refine .branch hnodup hc hat hholds (fun σ s' hat hholds => ?_) fun σ s' _ hholds => ?_
    · exact followsAll consequent m b n' σ s' hnodup hexit hb hat hholds
    · exact .refl ⟨rfl, hholds, .refl base s'⟩
  | ifElse condition consequent alternate =>
    obtain ⟨c, m, hc, b, k, hb, a, ha, rfl⟩ := lower_ifElse.mp hlower
    rw [exec]
    refine .branch hnodup hc hat hholds (fun σ s' hat hholds => ?_) fun σ s' hat hholds => ?_
    · exact followsAll consequent m b k σ s' hnodup hexit hb hat hholds
    · exact followsAll alternate k a n' σ s' hnodup hexit ha hat hholds
  | loop condition body =>
    obtain ⟨c, m, hc, b, hb, rfl⟩ := lower_loop.mp hlower
    rw [exec]
    exact .cycle hnodup hc hat rfl hholds
      (fun σ s' hat hholds => followsAll body m b n' σ s' hnodup hexit hb hat hholds) le_rfl

/-- The code of statements follows them, one behind the other. -/
theorem followsAll (stmts : List Stmt) (n : Nat) (block : List Line) (n' : Nat) (σ : Store)
    (s : State) (hnodup : (labelNames image).Nodup)
    (hexit : target? image Label.exit.render = some exit)
    (hlower : Gives (lowerBlock t stmts) n block n') (hat : At image s.pc block)
    (hholds : Holds t σ base s) :
    Follows image t base exit fuel s (s.pc + block.length) (execAll fuel stmts σ) := by
  cases stmts with
  | nil =>
    obtain ⟨rfl, rfl⟩ := lowerBlock_nil.mp hlower
    rw [execAll]
    exact .refl ⟨rfl, hholds, .refl base s⟩
  | cons stmt rest =>
    obtain ⟨first, m, hfirst, others, hothers, rfl⟩ := lowerBlock_cons.mp hlower
    rw [execAll]
    have h := follows stmt n first m σ s hnodup hexit hfirst hat.left hholds
    refine h.andThen fun σ' s' hpc hholds' => ?_
    have hrest := followsAll rest m others n' σ' s' hnodup hexit hothers (hat.right _ hpc) hholds'
    rwa [hpc, Nat.add_assoc, ← List.length_append] at hrest

end

end Stmt

end TinyCompiler
