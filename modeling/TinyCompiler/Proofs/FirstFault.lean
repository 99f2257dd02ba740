import TinyCompiler.Proofs.TableHistory

/-! The faults of a program, and the first of them. Lowering a program needs the table in an order:
statement by statement, a condition before its blocks, a left operand before the right one, a
value before its target. An access that the table does not bear out is a fault. Lowering succeeds
if there is none, and raises the first one otherwise. -/
namespace TinyCompiler

/-- What the code of a tree needs of the table: the binding that a reference points at, or a
place for the name that is written. -/
inductive Access where
  | read (name : String) (binding : Nat)
  | write (name : String)

/-- The fault of an access: a reference whose binding is out of range or has another name, or a
name that nothing has bound. -/
def Access.fault? (t : SymbolTable) : Access → Option LoweringError
  | read name binding =>
    match t.resolve binding with
    | some b => if b.name = name then none else some (.dangling name binding)
    | none => some (.dangling name binding)
  | write name => if name ∈ t.bound then none else some (.noSlot name)

def faultsOf (t : SymbolTable) (accesses : List Access) : List LoweringError :=
  accesses.filterMap (Access.fault? t)

theorem faultsOf_append (t : SymbolTable) (a b : List Access) :
    faultsOf t (a ++ b) = faultsOf t a ++ faultsOf t b := List.filterMap_append

theorem faultsOf_singleton (t : SymbolTable) (a : Access) :
    faultsOf t [a] = (a.fault? t).toList := by
  cases h : a.fault? t <;> simp [faultsOf, h]

def Expr.accesses : Expr → List Access
  | integer _ | boolean _ => []
  | reference name binding => [.read name binding]
  | unary _ operand => operand.accesses
  | binary _ left right | comparison _ left right | connective _ left right =>
    left.accesses ++ right.accesses

namespace Stmt

mutual

/-- The accesses of a statement. The binding that it carries itself is none. -/
def accesses : Stmt → List Access
  | expr value | ret value => value.accesses
  | declare name value _ | assign name value _ => value.accesses ++ [.write name]
  | ifThen condition consequent => condition.accesses ++ accessesAll consequent
  | ifElse condition consequent alternate =>
    condition.accesses ++ (accessesAll consequent ++ accessesAll alternate)
  | loop condition body => condition.accesses ++ accessesAll body

def accessesAll : List Stmt → List Access
  | [] => []
  | s :: rest => s.accesses ++ accessesAll rest

end

end Stmt

def Program.faults (p : Program) : List LoweringError :=
  faultsOf p.symbols (Stmt.accessesAll p.statements)

/-- A result that has these faults: a success if there are none, and the first one if there are
some. -/
def Reports {α : Type} (faults : List LoweringError) : Except LoweringError α → Prop
  | .ok _ => faults = []
  | .error e => faults.head? = some e

namespace Reports

variable {α β : Type} {faults : List LoweringError} {result : Except LoweringError α}

theorem map (h : Reports faults result) (f : α → β) : Reports faults (result.map f) := by
  cases result with
  | ok a => exact h
  | error e => exact h

theorem ok_iff (h : Reports faults result) : (∃ a, result = .ok a) ↔ faults = [] := by
  cases result with
  | ok a => exact iff_of_true ⟨a, rfl⟩ h
  | error e =>
    refine iff_of_false (by simp) fun hnil => ?_
    rw [hnil] at h
    cases h

theorem error_iff (h : Reports faults result) (e : LoweringError) :
    result = .error e ↔ faults.head? = some e := by
  cases result with
  | ok a => simp [show faults = [] from h]
  | error e' => simp [show faults.head? = some e' from h]

end Reports

namespace Lowering

variable {α β γ : Type}

def StopsAt (m : Lowering α) (faults : List LoweringError) : Prop := ∀ n, Reports faults (m.run n)

theorem stopsAt_pure (a : α) : (pure a : Lowering α).StopsAt [] := fun _ => rfl

theorem stopsAt_throw (e : LoweringError) : (throw e : Lowering α).StopsAt [e] := fun _ => rfl

theorem stopsAt_labels (first second : LabelRole) : (labels first second).StopsAt [] :=
  fun _ => rfl

/-- What comes first fails first. -/
theorem StopsAt.bind {m : Lowering α} {f : α → Lowering β} {xs ys : List LoweringError}
    (h : m.StopsAt xs) (hf : ∀ a, (f a).StopsAt ys) : (m >>= f).StopsAt (xs ++ ys) := by
  intro n
  have hm := h n
  rw [StateT.run_bind]
  cases hrun : m.run n with
  | ok out =>
    rw [hrun] at hm
    rw [show xs = [] from hm, List.nil_append]
    exact hf out.1 out.2
  | error e =>
    rw [hrun] at hm
    show (xs ++ ys).head? = some e
    rw [List.head?_append, show xs.head? = some e from hm, Option.some_or]

theorem StopsAt.result {m : Lowering α} {xs : List LoweringError} (h : m.StopsAt xs) (f : α → β) :
    (m >>= fun a => pure (f a)).StopsAt xs := by
  have hall := h.bind fun a => stopsAt_pure (f a)
  rwa [List.append_nil] at hall

theorem StopsAt.both {m : Lowering α} {m' : Lowering β} {xs ys : List LoweringError}
    (h : m.StopsAt xs) (h' : m'.StopsAt ys) (f : α → β → γ) :
    (m >>= fun a => m' >>= fun b => pure (f a b)).StopsAt (xs ++ ys) :=
  h.bind fun a => h'.result (f a)

/-- Nothing is lowered behind a fault. -/
theorem StopsAt.bind_of_fault {m : Lowering α} {e : LoweringError} (h : m.StopsAt [e])
    (f : α → Lowering β) : (m >>= f).StopsAt [e] := by
  intro n
  have hm := h n
  rw [StateT.run_bind]
  cases hrun : m.run n with
  | ok out =>
    rw [hrun] at hm
    cases hm
  | error e' =>
    rw [hrun] at hm
    exact hm

end Lowering

open Lowering

variable {t : SymbolTable} {name : String} {binding : Nat}

namespace SymbolTable.Consistent

theorem exists_slot (h : t.Consistent) (hname : name ∈ t.bound) :
    ∃ slot, t.slot? name = some slot := by
  rw [exists_slot_iff, h.names, List.mem_eraseDups]
  exact hname

theorem slot?_eq_none (h : t.Consistent) (hname : name ∉ t.bound) : t.slot? name = none := by
  rw [← Option.not_isSome_iff_eq_none, Option.isSome_iff_exists, exists_slot_iff, h.names,
    List.mem_eraseDups]
  exact hname

/-- A reference that points at a binding of its name has a slot. -/
theorem exists_slot_of_read (h : t.Consistent)
    (hread : Access.fault? t (.read name binding) = none) : ∃ slot, t.slot? name = some slot := by
  rw [Access.fault?] at hread
  split at hread
  next b hb =>
    split at hread
    next hname =>
      have hbound := (t.bound_getElem? name binding).mpr ⟨b, hb, hname⟩
      exact h.exists_slot (List.mem_of_getElem? hbound)
    next => cases hread
  next => cases hread

end SymbolTable.Consistent

namespace Lowering

theorem stopsAt_checkBinding (t : SymbolTable) (name : String) (binding : Nat) :
    (checkBinding t name binding).StopsAt (Access.fault? t (.read name binding)).toList := by
  rw [checkBinding, Access.fault?]
  cases t.resolve binding with
  | none => exact stopsAt_throw _
  | some b =>
    by_cases hname : b.name = name
    · simpa [hname] using stopsAt_pure ()
    · simpa [hname] using stopsAt_throw (α := Unit) (.dangling name binding)

theorem stopsAt_slot (h : t.Consistent) (name : String) :
    (slot t name).StopsAt (Access.fault? t (.write name)).toList := by
  rw [slot, Access.fault?]
  by_cases hname : name ∈ t.bound
  · obtain ⟨offset, hslot⟩ := h.exists_slot hname
    rw [hslot, if_pos hname]
    exact stopsAt_pure offset
  · rw [h.slot?_eq_none hname, if_neg hname]
    exact stopsAt_throw _

end Lowering

theorem Expr.stopsAt_reference (h : t.Consistent) (name : String) (binding : Nat) :
    ((reference name binding).lower t).StopsAt (faultsOf t [.read name binding]) := by
  rw [faultsOf_singleton]
  have hcheck := stopsAt_checkBinding t name binding
  cases hfault : Access.fault? t (.read name binding) with
  | none =>
    rw [hfault] at hcheck
    obtain ⟨slot, hslot⟩ := h.exists_slot_of_read hfault
    have hload : (Lowering.slot t name).StopsAt [] := by
      rw [Lowering.slot, hslot]
      exact stopsAt_pure slot
    exact hcheck.bind fun _ => hload.bind fun _ => stopsAt_pure _
  | some e =>
    rw [hfault] at hcheck
    exact hcheck.bind_of_fault _

/-- The left operand comes first, also in a connective, which makes its labels before. -/
theorem Expr.stopsAt (h : t.Consistent) : (e : Expr) →
    (e.lower t).StopsAt (faultsOf t e.accesses)
  | integer _ | boolean _ => stopsAt_pure _
  | reference name binding => stopsAt_reference h name binding
  | unary op operand => (operand.stopsAt h).result _
  | binary op left right | comparison op left right => by
    rw [accesses, faultsOf_append]
    exact (left.stopsAt h).both (right.stopsAt h) _
  | connective op left right => by
    rw [accesses, faultsOf_append]
    exact (stopsAt_labels .short .finish).bind fun _ =>
      (left.stopsAt h).both (right.stopsAt h) _

namespace Stmt

/-- The value comes before its target. -/
theorem stopsAt_store (h : t.Consistent) (name : String) (value : Expr) :
    (lowerStore t name value).StopsAt (faultsOf t (value.accesses ++ [.write name])) := by
  rw [faultsOf_append, faultsOf_singleton]
  exact (value.stopsAt h).both (stopsAt_slot h name) _

mutual

theorem stopsAt (h : t.Consistent) : (s : Stmt) → (s.lower t).StopsAt (faultsOf t s.accesses)
  | expr value => value.stopsAt h
  | declare name value _ | assign name value _ => stopsAt_store h name value
  | ret value => (value.stopsAt h).result _
  | ifThen condition consequent => by
    rw [accesses, faultsOf_append]
    exact (stopsAt_labels .otherwise .finish).bind fun _ =>
      (condition.stopsAt h).both (stopsAtAll h consequent) _
  | ifElse condition consequent alternate => by
    rw [accesses, faultsOf_append, faultsOf_append]
    exact (stopsAt_labels .otherwise .finish).bind fun _ =>
      (condition.stopsAt h).bind fun _ => (stopsAtAll h consequent).both (stopsAtAll h alternate) _
  | loop condition body => by
    rw [accesses, faultsOf_append]
    exact (stopsAt_labels .begin .finish).bind fun _ =>
      (condition.stopsAt h).both (stopsAtAll h body) _

theorem stopsAtAll (h : t.Consistent) : (b : List Stmt) →
    (lowerBlock t b).StopsAt (faultsOf t (accessesAll b))
  | [] => stopsAt_pure _
  | s :: rest => by
    rw [accessesAll, faultsOf_append]
    exact (stopsAt h s).both (stopsAtAll h rest) _

end

end Stmt

/-- The names that calls bind are the ones that they declare: an assignment binds no other. -/
theorem SymbolTable.Consistent.mem_bound_after (h : t.Consistent) (calls : List SymbolTable.Call)
    (name : String) : name ∈ (t.after calls).bound ↔
      name ∈ t.bound ∨ ∃ value, .declare name value ∈ calls := by
  induction calls generalizing t with
  | nil => simp
  | cons c rest ih =>
    rw [after_cons, ih (h.answer c)]
    cases c with
    | declare other value =>
      have hdeclare : (t.answer (.declare other value)).2.bound = t.bound ++ [other] :=
        bound_declare t other value
      simp [hdeclare, exists_or, or_assoc]
    | assign other value line =>
      have hassign : name ∈ (t.answer (.assign other value line)).2.bound ↔ name ∈ t.bound := by
        cases hother : t.contains other with
        | true =>
          have hbound := (h.tracks.contains other).mp hother
          have hanswer : (t.answer (.assign other value line)).2 = (t.declare other value).2 := by
            simp [SymbolTable.answer, assign, hother]
          rw [hanswer, bound_declare, List.mem_append, List.mem_singleton]
          refine or_iff_left_of_imp ?_
          rintro rfl
          exact hbound
        | false => simp [SymbolTable.answer, assign, hother]
      simp [hassign]

namespace Program

/-- The assembly of a program whose table has been built by calls. -/
theorem reports_faults {p : Program} (h : p.symbols.Consistent) (entry : String) :
    Reports p.faults (p.assembly entry) := by
  have hbody : Reports p.faults ((Stmt.lowerBlock p.symbols p.statements).run 0) :=
    Stmt.stopsAtAll h p.statements 0
  have hlines : Reports p.faults (p.assemble entry) :=
    hbody.map fun out => prologue entry p.symbols.frameSize ++ out.1 ++ epilogue
  exact hlines.map renderLines

end Program

/-- A program whose table has been built by calls assembles if it has no fault, and fails with its
first one otherwise, whatever the entry is called. -/
theorem first_fault_of_calls (calls : List SymbolTable.Call) (statements : List Stmt)
    (entry : String) :
    let t := SymbolTable.empty.after calls
    let p := Program.mk statements t
    ((∃ text, p.assembly entry = .ok text) ↔ p.faults = []) ∧
      (∀ e, p.assembly entry = .error e ↔ p.faults.head? = some e) ∧
      (∀ name binding, Access.fault? t (.read name binding) = none →
        ∃ slot, t.slot? name = some slot) ∧
      (∀ name, Access.fault? t (.write name) = some (.noSlot name) ↔
        ∀ value, .declare name value ∉ calls) ∧
      (∀ name binding, (LoweringError.dangling name binding).message =
        "Codegen error: dangling binding #" ++ binding.repr ++ " for '" ++ name ++ "'") ∧
      ∀ name, (LoweringError.noSlot name).message =
        "Codegen error: no stack slot for '" ++ name ++ "'" := by
  intro t p
  have h : t.Consistent := SymbolTable.consistent_empty.after calls
  have hreports : Reports p.faults (p.assembly entry) := p.reports_faults h entry
  refine ⟨hreports.ok_iff, hreports.error_iff, fun name binding => h.exists_slot_of_read,
    fun name => ?_, fun _ _ => rfl, fun _ => rfl⟩
  have hempty : name ∉ SymbolTable.empty.bound := List.not_mem_nil
  have hbound : name ∈ t.bound ↔ ∃ value, .declare name value ∈ calls :=
    (SymbolTable.consistent_empty.mem_bound_after calls name).trans (or_iff_right hempty)
  simp [Access.fault?, hbound]

/-- The condition comes before the block, and in it the value before its target. -/
example :
    (Program.mk
      [.ifThen (.reference "x" 1) [.assign "y" (.reference "x" 0) 5], .ret (.reference "y" 0)]
      (SymbolTable.empty.after [.declare "x" (.integer 1)])).faults =
        [.dangling "x" 1, .noSlot "y", .dangling "y" 0] := by
  decide

end TinyCompiler
