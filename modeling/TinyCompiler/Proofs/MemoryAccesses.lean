import TinyCompiler.Proofs.FirstFault
import TinyCompiler.Proofs.LabelPlacement
import TinyCompiler.Proofs.StatementCode

/-! What compiled code does in memory beside the stack: its operations with an operand in memory are
the accesses of the statements in their order, each at the slot of its name, whatever binding it
carries. -/
namespace TinyCompiler

open Lowering Machine

namespace SymbolTable

variable {t : SymbolTable} {name : String} {slot : Nat}

def PlacedBy (t : SymbolTable) (slot : String → Nat) : Prop :=
  ∀ name ∈ t.names, t.slot? name = some (slot name)

theorem exists_placedBy (t : SymbolTable) : ∃ slot, t.PlacedBy slot :=
  ⟨fun name => (t.slot? name).getD 0, fun name hname => by
    obtain ⟨k, hk⟩ := exists_slot_iff.mpr hname
    simp [hk]⟩

theorem PlacedBy.eq {place : String → Nat} (h : t.PlacedBy place)
    (hslot : t.slot? name = some slot) : place name = slot :=
  Option.some.inj ((h name (exists_slot_iff.mp ⟨slot, hslot⟩)).symm.trans hslot)

theorem PlacedBy.injOn {place : String → Nat} (h : t.PlacedBy place) :
    Set.InjOn place {name | name ∈ t.names} := by
  intro name hname name' hname' heq
  have hslot := h name hname
  rw [heq] at hslot
  exact t.slot?_injective hslot (h name' hname')

end SymbolTable

namespace Machine

def Operand.isMemory : Operand → Bool
  | .memory _ _ => true
  | _ => false

def Operation.onMemory (o : Operation) : Bool := o.operands.any Operand.isMemory

def memoryOperations (image : List Item) : List Operation :=
  image.filterMap fun
    | .operation o => if o.onMemory then some o else none
    | _ => none

@[simp] theorem memoryOperations_append (a b : List Item) :
    memoryOperations (a ++ b) = memoryOperations a ++ memoryOperations b :=
  List.filterMap_append

theorem mem_memoryOperations {image : List Item} {o : Operation} :
    o ∈ memoryOperations image ↔ .operation o ∈ image ∧ o.onMemory := by
  simp only [memoryOperations, List.mem_filterMap]
  constructor
  · rintro ⟨item, hitem, hsome⟩
    cases item with
    | operation o' =>
      obtain ⟨hmemory, heq⟩ := Option.ite_none_right_eq_some.mp hsome
      cases heq
      exact ⟨hitem, hmemory⟩
    | label name => cases hsome
    | directive => cases hsome
  · rintro ⟨hitem, hmemory⟩
    exact ⟨_, hitem, if_pos hmemory⟩

end Machine

def touched (block : List Line) : List Operation := memoryOperations (block.map Line.item)

section

variable {a b : List Line}

@[simp] theorem touched_append : touched (a ++ b) = touched a ++ touched b := by
  simp [touched]

@[simp] theorem touched_label (l : Label) : touched (.label l :: a) = touched a := rfl

@[simp] theorem touched_nil : touched [] = [] := rfl

@[simp] theorem touched_code (is : List Instruction) :
    touched (code is) = (is.map Instruction.operation).filter Operation.onMemory := by
  induction is with
  | nil => rfl
  | cons i rest ih =>
    have hcons : code (i :: rest) = .instruction i :: code rest := rfl
    cases h : i.operation.onMemory <;> simp_all [touched, memoryOperations, Line.item]

end

@[simp] theorem UnaryOp.onMemory_instructions (op : UnaryOp) :
    (op.instructions.map Instruction.operation).filter Operation.onMemory = [] := by
  cases op <;> rfl

@[simp] theorem BinaryOp.onMemory_instructions (op : BinaryOp) :
    (op.instructions.map Instruction.operation).filter Operation.onMemory = [] := by
  cases op <;> rfl

@[simp] theorem Comparison.onMemory_instructions (op : Comparison) :
    (op.instructions.map Instruction.operation).filter Operation.onMemory = [] := rfl

section

variable (n : Nat) (a b c : List Line)

attribute [local simp] Instruction.operation Operation.onMemory Operand.isMemory

theorem touched_operands : touched (Expr.operands a b) = touched a ++ touched b := by
  have hpush : Expr.operands a b = a ++ (code [.push .rax] ++
    (b ++ code [.mov .rdi (.register .rax), .pop .rax])) := rfl
  simp [hpush, Operand.operand]

theorem touched_frame (op : Connective) : touched (op.frame n a b) = touched a ++ touched b := by
  simp [Connective.frame, Operand.operand]

theorem touched_branch :
    touched (branch n a b c) = touched a ++ (touched b ++ touched c) := by
  simp [branch, Operand.operand]

theorem touched_cycle : touched (cycle n a b) = touched a ++ touched b := by
  simp [cycle, Operand.operand]

end

def Access.name : Access → String
  | read name _ | write name => name

/-- The operation for an access. The binding of a reference makes no difference. -/
def Access.operation (slot : String → Nat) : Access → Operation
  | read name _ => ⟨.mov, [.register .rax, .memory .rbp (-slot name)]⟩
  | write name => ⟨.mov, [.memory .rbp (-slot name), .register .rax]⟩

section

variable {t : SymbolTable} {slot : String → Nat} {block : List Line} {n n' : Nat}

theorem Expr.touched_of_lower (hslot : t.PlacedBy slot) {e : Expr}
    (h : Gives (e.lower t) n block n') :
    touched block = e.accesses.map (Access.operation slot) := by
  induction e generalizing n block n' with
  | integer value =>
    obtain ⟨rfl, rfl⟩ := lower_integer.mp h
    rfl
  | boolean value =>
    obtain ⟨rfl, rfl⟩ := lower_boolean.mp h
    rfl
  | reference name binding =>
    obtain ⟨-, k, hk, rfl, rfl⟩ := lower_reference.mp h
    obtain rfl := hslot.eq hk
    rfl
  | unary op operand ih =>
    obtain ⟨o, ho, rfl⟩ := lower_unary.mp h
    simp [ih ho, accesses]
  | binary op left right ihl ihr =>
    obtain ⟨l, m, hl, r, hr, rfl⟩ := lower_binary.mp h
    simp [touched_operands, ihl hl, ihr hr, accesses]
  | comparison op left right ihl ihr =>
    obtain ⟨l, m, hl, r, hr, rfl⟩ := lower_comparison.mp h
    simp [touched_operands, ihl hl, ihr hr, accesses]
  | connective op left right ihl ihr =>
    obtain ⟨l, m, hl, r, hr, rfl⟩ := lower_connective.mp h
    simp [touched_frame, ihl hl, ihr hr, accesses]

namespace Stmt

theorem touched_of_lowerStore (hslot : t.PlacedBy slot) {name : String} {value : Expr}
    (h : Gives (lowerStore t name value) n block n') :
    touched block = (value.accesses ++ [Access.write name]).map (Access.operation slot) := by
  obtain ⟨v, hv, k, hk, rfl⟩ := gives_lowerStore.mp h
  obtain rfl := hslot.eq hk
  rw [touched_append, Expr.touched_of_lower hslot hv, List.map_append]
  rfl

mutual

theorem touched_of_lower (hslot : t.PlacedBy slot) (s : Stmt) (n : Nat) (block : List Line)
    (n' : Nat) (h : Gives (s.lower t) n block n') :
    touched block = s.accesses.map (Access.operation slot) := by
  cases s with
  | expr value => exact Expr.touched_of_lower hslot h
  | declare name value binding => exact touched_of_lowerStore hslot h
  | assign name value binding => exact touched_of_lowerStore hslot h
  | ret value =>
    obtain ⟨v, hv, rfl⟩ := lower_ret.mp h
    rw [touched_append, Expr.touched_of_lower hslot hv]
    exact List.append_nil _
  | ifThen condition consequent =>
    obtain ⟨c, m, hc, b, hb, rfl⟩ := lower_ifThen.mp h
    simp [touched_branch, Expr.touched_of_lower hslot hc,
      touched_of_lowerBlock hslot consequent m b n' hb, accesses]
  | ifElse condition consequent alternate =>
    obtain ⟨c, m, hc, b, k, hb, a, ha, rfl⟩ := lower_ifElse.mp h
    simp [touched_branch, Expr.touched_of_lower hslot hc,
      touched_of_lowerBlock hslot consequent m b k hb,
      touched_of_lowerBlock hslot alternate k a n' ha, accesses]
  | loop condition body =>
    obtain ⟨c, m, hc, b, hb, rfl⟩ := lower_loop.mp h
    simp [touched_cycle, Expr.touched_of_lower hslot hc,
      touched_of_lowerBlock hslot body m b n' hb, accesses]

theorem touched_of_lowerBlock (hslot : t.PlacedBy slot) (ss : List Stmt) (n : Nat)
    (block : List Line) (n' : Nat) (h : Gives (lowerBlock t ss) n block n') :
    touched block = (accessesAll ss).map (Access.operation slot) := by
  cases ss with
  | nil =>
    obtain ⟨rfl, rfl⟩ := lowerBlock_nil.mp h
    rfl
  | cons s rest =>
    obtain ⟨first, m, hfirst, others, hothers, rfl⟩ := lowerBlock_cons.mp h
    rw [touched_append, touched_of_lower hslot s n first m hfirst,
      touched_of_lowerBlock hslot rest m others n' hothers, accessesAll, List.map_append]

end

end Stmt

end

theorem Access.name_mem {t : SymbolTable} (ht : t.Consistent) {a : Access}
    (h : a.fault? t = none) : a.name ∈ t.names := by
  cases a with
  | read name binding => exact SymbolTable.exists_slot_iff.mp (ht.exists_slot_of_read h)
  | write name =>
    rw [ht.names, List.mem_eraseDups]
    simpa [fault?, Access.name] using h

theorem Access.memory_operand {slot : String → Nat} {a : Access} {base : Register}
    {displacement : Int}
    (h : Machine.Operand.memory base displacement ∈ (a.operation slot).operands) :
    base = .rbp ∧ displacement = -slot a.name := by
  cases a <;> simpa [operation, name] using h

end TinyCompiler
