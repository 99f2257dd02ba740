import TinyCompiler.Syntax.Tree
import TinyCompiler.Syntax.Error

/-! The table of names. Bindings are only ever appended, so an index keeps the name and the
value it was given out for. Beside them stand the names in the order of their first
declaration, each with the index of its latest binding. There is one scope. A program is its
statements together with the table that they were read against. -/
namespace TinyCompiler

structure Binding where
  name : String
  value : Expr
  deriving DecidableEq

structure SymbolTable where
  bindings : Array Binding
  entries : List (String × Nat)
  deriving DecidableEq

namespace SymbolTable

def empty : SymbolTable := ⟨#[], []⟩

def lookup (t : SymbolTable) (name : String) : Option Nat := t.entries.lookup name

def contains (t : SymbolTable) (name : String) : Bool := (t.lookup name).isSome

def resolve (t : SymbolTable) (index : Nat) : Option Binding := t.bindings[index]?

def current (t : SymbolTable) (name : String) : Option Binding := (t.lookup name).bind t.resolve

/-- The declared names, in the order of their first declaration. -/
def names (t : SymbolTable) : List String := t.entries.map Prod.fst

def size (t : SymbolTable) : Nat := t.entries.length

def isEmpty (t : SymbolTable) : Bool := t.entries.isEmpty

/-- Moves a name to a new index; a new name comes last. -/
def point (name : String) (index : Nat) : List (String × Nat) → List (String × Nat)
  | [] => [(name, index)]
  | (other, i) :: rest =>
    if other = name then (name, index) :: rest else (other, i) :: point name index rest

/-- Binds a name, whether it is declared or not. Gives the index of the new binding. -/
def declare (t : SymbolTable) (name : String) (value : Expr) : Nat × SymbolTable :=
  let index := t.bindings.size
  (index, ⟨t.bindings.push ⟨name, value⟩, point name index t.entries⟩)

/-- Binds a declared name anew. Only the diagnostic uses the line. -/
def assign (t : SymbolTable) (name : String) (value : Expr) (line : Nat) :
    Except SyntaxError (Nat × SymbolTable) :=
  if t.contains name then .ok (t.declare name value) else .error (.undeclared name line)

theorem lookup_point (name other : String) (index : Nat) (entries : List (String × Nat)) :
    (point name index entries).lookup other =
      if other = name then some index else entries.lookup other := by
  induction entries with
  | nil =>
    by_cases h : other = name
    · simp [point, h]
    · simp [point, List.lookup_cons, beq_false_of_ne h, h]
  | cons entry rest ih =>
    obtain ⟨n, i⟩ := entry
    by_cases hn : n = name
    · subst hn
      by_cases h : other = n
      · simp [point, h]
      · simp [point, List.lookup_cons, beq_false_of_ne h, h]
    · by_cases h : other = n
      · subst h
        simp [point, hn]
      · simp [point, hn, List.lookup_cons, beq_false_of_ne h, ih]

/-- A new name comes last, and a declared one keeps its place. -/
theorem map_fst_point (name : String) (index : Nat) (entries : List (String × Nat)) :
    (point name index entries).map Prod.fst =
      if name ∈ entries.map Prod.fst then entries.map Prod.fst
      else entries.map Prod.fst ++ [name] := by
  induction entries with
  | nil => simp [point]
  | cons entry rest ih =>
    obtain ⟨n, i⟩ := entry
    by_cases hn : n = name
    · simp [point, hn]
    · have : name ≠ n := Ne.symm hn
      by_cases h : name ∈ rest.map Prod.fst <;> simp_all [point]

theorem lookup_declare (t : SymbolTable) (name other : String) (value : Expr) :
    (t.declare name value).2.lookup other =
      if other = name then some t.bindings.size else t.lookup other :=
  lookup_point name other t.bindings.size t.entries

theorem names_declare (t : SymbolTable) (name : String) (value : Expr) :
    (t.declare name value).2.names = if name ∈ t.names then t.names else t.names ++ [name] :=
  map_fst_point name t.bindings.size t.entries

end SymbolTable

/-- The indices in the statements point into the table. -/
structure Program where
  statements : List Stmt
  symbols : SymbolTable
  deriving DecidableEq

namespace Program

def size (p : Program) : Nat := p.statements.length

def isEmpty (p : Program) : Bool := p.statements.isEmpty

end Program

end TinyCompiler
