import TinyCompiler.Proofs.StraightLine

/-! Cells that are not read. Two states that differ only in cells which a run stores into before it
reads them, if it reads them at all, go the same way. -/
namespace TinyCompiler.Machine

namespace State

def cells (s : State) : Operand → List Int
  | .memory base displacement => (s.address? base displacement).toList
  | .register _ | .lowByte _ | .immediate _ | .symbol _ => []

def top (s : State) : List Int :=
  match s.registers .rsp with
  | .address a => [a]
  | .word _ => []

def loads (s : State) (o : Operation) : List Int :=
  match o.mnemonic, o.operands with
  | .mov, [_, source] | .movzx, [_, source] => s.cells source
  | .pop, _ => s.top
  | _, operands => operands.flatMap s.cells

def stores (s : State) (o : Operation) : List Int :=
  match o.mnemonic, o.operands with
  | .push, _ => s.top.map (· - 8)
  | .pop, [target] => ((s.pop.map fun (_, s') => s'.cells target)).getD []
  | .cmp, _ | .idiv, _ => []
  | _, target :: _ => s.cells target
  | _, [] => []

end State

/-- A run from the state reads the cell before it stores into it. -/
inductive ReadsEarly (image : List Item) (a : Int) : State → Prop where
  | here {s : State} {o : Operation} (ho : image[s.pc]? = some (.operation o))
    (ha : a ∈ s.loads o) : ReadsEarly image a s
  | later {s s' : State} (hstep : step image s = .running s')
    (hstores : ∀ o, image[s.pc]? = some (.operation o) → a ∉ s.stores o)
    (more : ReadsEarly image a s') : ReadsEarly image a s

/-- The states differ in cells of a set only. -/
structure Alike (U : Int → Prop) (s t : State) : Prop where
  pc : t.pc = s.pc
  registers : t.registers = s.registers
  flags : t.flags = s.flags
  memory : ∀ a, ¬U a → t.memory a = s.memory a

/-- Outcomes of one kind, with states that differ in cells of a set only. -/
inductive Outcome.Alike (U : Int → Prop) : Outcome → Outcome → Prop where
  | running {s t : State} (h : Machine.Alike U s t) : Outcome.Alike U (.running s) (.running t)
  | returned {s t : State} (h : Machine.Alike U s t) : Outcome.Alike U (.returned s) (.returned t)
  | fault : Outcome.Alike U .fault .fault
  | stuck : Outcome.Alike U .stuck .stuck

variable {image : List Item} {U : Int → Prop} {s t s' t' : State}

theorem rel_bind {α β : Type} {R : β → β → Prop} {x : Option α} {f g : α → Option β}
    (h : ∀ v, Option.Rel R (f v) (g v)) : Option.Rel R (x.bind f) (x.bind g) := by
  cases x with
  | none => exact .none
  | some v => exact h v

namespace Alike

theorem mono {V : Int → Prop} (h : Alike U s t) (hUV : ∀ a, U a → V a) : Alike V s t :=
  ⟨h.pc, h.registers, h.flags, fun a ha => h.memory a fun hU => ha (hUV a hU)⟩

theorem beyond (h : Alike U s t) : Alike (fun a => U a ∧ a ∉ ([] : List Int)) s t :=
  h.mono fun _ hU => ⟨hU, List.not_mem_nil⟩

theorem set_flags (h : Alike U s t) (f : Option Flags) :
    Alike U { s with flags := f } { t with flags := f } :=
  ⟨h.pc, h.registers, rfl, h.memory⟩

theorem next (h : Alike U s t) : Alike U s.next t.next :=
  ⟨congrArg (· + 1) h.pc, h.registers, h.flags, h.memory⟩

theorem address? (h : Alike U s t) (base : Register) (displacement : Int) :
    t.address? base displacement = s.address? base displacement := by
  rw [State.address?, h.registers]
  rfl

theorem read (h : Alike U s t) {o : Operand} (ho : ∀ a ∈ s.cells o, ¬U a) :
    t.read o = s.read o := by
  cases o with
  | register r => simp only [State.read, h.registers]
  | memory base displacement =>
    simp only [State.read, h.address?]
    cases ha : s.address? base displacement with
    | none => rfl
    | some a =>
      have hU : ¬U a := ho a (by simp [State.cells, ha])
      simp [h.memory a hU]
  | lowByte r | immediate value | symbol name => rfl

theorem readWord (h : Alike U s t) {o : Operand} (ho : ∀ a ∈ s.cells o, ¬U a) :
    t.readWord o = s.readWord o := by
  rw [State.readWord, h.read ho]
  rfl

theorem set (h : Alike U s t) (r : Register) (v : Value) : Alike U (s.set r v) (t.set r v) :=
  ⟨h.pc, by simp only [State.set, h.registers], h.flags, h.memory⟩

theorem store (h : Alike U s t) (a : Int) (v : Value) :
    Alike (fun a' => U a' ∧ a' ≠ a) (s.store a v) (t.store a v) := by
  refine ⟨h.pc, h.registers, h.flags, fun a' ha' => ?_⟩
  by_cases hsame : a' = a
  · simp [State.store, hsame]
  · simp [State.store, hsame, h.memory a' fun hU => ha' ⟨hU, hsame⟩]

theorem write (h : Alike U s t) (v : Value) (o : Operand) :
    Option.Rel (Alike fun a => U a ∧ a ∉ s.cells o) (s.write v o) (t.write v o) := by
  cases o with
  | register r => exact .some (h.set r v).beyond
  | memory base displacement =>
    simp only [State.write, h.address?, State.cells]
    cases s.address? base displacement with
    | none => exact .none
    | some a => exact .some (by simpa using h.store a v)
  | lowByte r | immediate value | symbol name => exact .none

theorem compute (h : Alike U s t) (f : Int64 → Int64 → Int64) {target source : Operand}
    (htarget : ∀ a ∈ s.cells target, ¬U a) (hsource : ∀ a ∈ s.cells source, ¬U a) :
    Option.Rel (Alike fun a => U a ∧ a ∉ s.cells target) (s.compute f target source)
      (t.compute f target source) := by
  rw [State.compute, State.compute, h.readWord htarget, h.readWord hsource]
  exact rel_bind fun a => rel_bind fun b => (h.set_flags none).write (.word (f a b)) target

theorem push (h : Alike U s t) (v : Value) :
    Option.Rel (Alike fun a => U a ∧ a ∉ s.top.map (· - 8)) (s.push v) (t.push v) := by
  simp only [State.push, State.top, h.registers]
  cases s.registers .rsp with
  | word w => exact .none
  | address a => exact .some (by simpa using (h.set .rsp (.address (a - 8))).store (a - 8) v)

theorem pop (h : Alike U s t) (htop : ∀ a ∈ s.top, ¬U a) :
    Option.Rel (fun out out' => out'.1 = out.1 ∧ Alike U out.2 out'.2) s.pop t.pop := by
  simp only [State.top] at htop
  simp only [State.pop, h.registers]
  cases hrsp : s.registers .rsp with
  | word w => exact .none
  | address a =>
    rw [hrsp] at htop
    exact .some ⟨h.memory a (htop a List.mem_cons_self), h.set .rsp (.address (a + 8))⟩

theorem pop_write (h : Alike U s t) (htop : ∀ a ∈ s.top, ¬U a) (target : Operand) :
    Option.Rel (Alike fun a => U a ∧ a ∉ ((s.pop.map fun (_, s') => s'.cells target)).getD [])
      (s.pop.bind fun (v, s') => s'.write v target)
      (t.pop.bind fun (v, s') => s'.write v target) := by
  have hpop := h.pop htop
  generalize s.pop = x at hpop ⊢
  generalize t.pop = y at hpop ⊢
  cases hpop with
  | none => exact .none
  | @some out out' hout =>
    obtain ⟨v, s'⟩ := out
    obtain ⟨v', t'⟩ := out'
    obtain ⟨rfl, halike⟩ := hout
    exact halike.write v' target

theorem not_of_mem {operands : List Operand} (h : ∀ a ∈ operands.flatMap s.cells, ¬U a)
    {o : Operand} (ho : o ∈ operands) : ∀ a ∈ s.cells o, ¬U a :=
  fun a ha => h a (List.mem_flatMap.mpr ⟨o, ho, ha⟩)

/-- The operations that neither jump nor divide. -/
theorem advance (h : Alike U s t) {mnemonic : Mnemonic} {operands : List Operand}
    (hloads : ∀ a ∈ s.loads ⟨mnemonic, operands⟩, ¬U a) :
    Option.Rel (Alike fun a => U a ∧ a ∉ s.stores ⟨mnemonic, operands⟩)
      (advance s mnemonic operands) (advance t mnemonic operands) := by
  revert hloads
  fun_cases Machine.advance s mnemonic operands <;> intro hloads
  case case1 source =>
    rw [Machine.advance, h.read fun a ha => hloads a (by simpa [State.loads] using ha)]
    exact rel_bind h.push
  case case2 target =>
    exact h.pop_write hloads target
  case case3 target source =>
    rw [Machine.advance, h.read hloads]
    exact rel_bind fun v => h.write v target
  case case4 target r =>
    rw [Machine.advance, h.readWord (by simp [State.cells])]
    exact rel_bind fun w => h.write _ target
  case case6 r value a hr =>
    have ht : t.registers r = .address a := by rw [h.registers, hr]
    rw [Machine.advance, ht]
    exact .some ((h.set_flags none).set r _).beyond
  case case7 r value w hr =>
    have ht : t.registers r = .word w := by rw [h.registers, hr]
    rw [Machine.advance, ht]
    exact .some ((h.set_flags none).set r _).beyond
  case case8 target source hother =>
    rw [Machine.advance.eq_7 _ _ _ hother]
    exact h.compute _ (not_of_mem hloads (by simp)) (not_of_mem hloads (by simp))
  case case13 target =>
    exact h.compute _ (not_of_mem hloads (by simp)) (not_of_mem hloads (by simp))
  case case14 target =>
    rw [Machine.advance, h.readWord (not_of_mem hloads (by simp))]
    exact rel_bind fun w => h.write _ target
  case case15 target r | case16 target r =>
    exact h.compute _ (not_of_mem hloads (by simp)) (by simp [State.cells])
  case case17 =>
    rw [Machine.advance, h.readWord (by simp [State.cells])]
    cases s.readWord (.register .rax) with
    | none => exact .none
    | some w => exact .some (h.set .rdx _).beyond
  case case18 left right =>
    rw [Machine.advance, h.readWord (not_of_mem hloads (by simp)),
      h.readWord (not_of_mem hloads (by simp))]
    exact rel_bind fun a => rel_bind fun b => .some (h.set_flags (some (.compare a b))).beyond
  case case19 condition r =>
    rw [Machine.advance, h.flags, h.readWord (by simp [State.cells])]
    exact rel_bind fun f => rel_bind fun w => .some (h.set r _).beyond
  case case20 =>
    rw [Machine.advance]
    · exact .none
    all_goals assumption
  all_goals exact h.compute _ (not_of_mem hloads (by simp)) (not_of_mem hloads (by simp))

theorem goto (h : Alike U s t) (name : String) :
    Outcome.Alike U (goto image s name) (goto image t name) := by
  rw [Machine.goto, Machine.goto]
  cases target? image name with
  | none => exact .stuck
  | some pc => exact .running ⟨rfl, h.registers, h.flags, h.memory⟩

theorem divide (h : Alike U s t) (divisor : Int64) :
    Outcome.Alike U (divide s divisor) (divide t divisor) := by
  have hresult (high low : Value) :=
    (((h.set_flags none).set .rax low).set .rdx high).next
  rw [Machine.divide, Machine.divide, h.registers]
  split
  · dsimp only
    split
    · exact .fault
    · exact .running (by simpa only [h.registers] using hresult _ _)
  · exact .stuck

theorem behind {x y : Option State} : Option.Rel (Alike U) x y →
    Outcome.Alike U (match x with | some s' => .running s'.next | none => .stuck)
      (match y with | some t' => .running t'.next | none => .stuck)
  | .none => .stuck
  | .some h => .running h.next

theorem perform (h : Alike U s t) {o : Operation} (hloads : ∀ a ∈ s.loads o, ¬U a) :
    Outcome.Alike (fun a => U a ∧ a ∉ s.stores o) (perform image s o) (perform image t o) := by
  revert hloads
  fun_cases Machine.perform image s o <;> intro hloads
  case case1 name => exact h.beyond.goto name
  case case2 condition name f hf htaken =>
    have ht : t.flags = some f := h.flags.trans hf
    simp only [Machine.perform, ht, if_pos htaken]
    exact h.beyond.goto name
  case case3 condition name f hf htaken =>
    have ht : t.flags = some f := h.flags.trans hf
    simp only [Machine.perform, ht, if_neg htaken]
    exact .running h.beyond.next
  case case4 condition name hf =>
    have ht : t.flags = none := h.flags.trans hf
    simp only [Machine.perform, ht]
    exact .stuck
  case case5 source divisor hdivisor =>
    have ht := (h.readWord (not_of_mem hloads List.mem_cons_self)).trans hdivisor
    simp only [Machine.perform, ht]
    exact h.beyond.divide divisor
  case case6 source hdivisor =>
    have ht := (h.readWord (not_of_mem hloads List.mem_cons_self)).trans hdivisor
    simp only [Machine.perform, ht]
    exact .stuck
  case case7 => exact .returned h.beyond
  case case8 mnemonic operands _ _ _ _ s' hs =>
    have hadvance := h.advance hloads
    rw [hs] at hadvance
    rw [Machine.perform]
    · exact behind hadvance
    all_goals assumption
  case case9 mnemonic operands _ _ _ _ hs =>
    have hadvance := h.advance hloads
    rw [hs] at hadvance
    rw [Machine.perform]
    · exact behind hadvance
    all_goals assumption

/-- One line, which reads no cell of the set. -/
theorem step (h : Alike U s t)
    (hloads : ∀ o, image[s.pc]? = some (.operation o) → ∀ a ∈ s.loads o, ¬U a) :
    Outcome.Alike (fun a => U a ∧ ∀ o, image[s.pc]? = some (.operation o) → a ∉ s.stores o)
      (step image s) (step image t) := by
  rw [Machine.step, Machine.step, h.pc]
  cases hline : image[s.pc]? with
  | none => exact .stuck
  | some item =>
    rw [hline] at hloads
    cases item with
    | label name => exact .running (h.next.mono fun a hU => ⟨hU, by simp⟩)
    | directive => exact .running (h.next.mono fun a hU => ⟨hU, by simp⟩)
    | operation o =>
      have hsame (a : Int) : (∀ o', some (Item.operation o) = some (.operation o') →
          a ∉ s.stores o') ↔ a ∉ s.stores o := by simp
      simpa only [hsame] using h.perform (hloads o rfl)

theorem run (h : Alike U s t) (hU : ∀ a, U a → ¬ReadsEarly image a s) (n : Nat) :
    ∃ V, Outcome.Alike V (run image n s) (run image n t) := by
  -- Induction on the steps: a cell leaves the set when it is stored into.
  induction n generalizing s t U with
  | zero => exact ⟨U, .running h⟩
  | succ n ih =>
    have hstep := h.step fun o ho a ha hUa => hU a hUa (.here ho ha)
    rw [Machine.run, Machine.run]
    generalize hs : Machine.step image s = outcome at hstep
    generalize Machine.step image t = outcome' at hstep
    cases hstep with
    | running h => exact ih h fun a ha hearly => hU a ha.1 (.later hs ha.2 hearly)
    | returned h => exact ⟨_, .returned h⟩
    | fault => exact ⟨U, .fault⟩
    | stuck => exact ⟨U, .stuck⟩

end Alike

end TinyCompiler.Machine
