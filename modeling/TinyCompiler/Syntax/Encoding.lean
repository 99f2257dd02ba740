import TinyCompiler.SymbolTable
import TinyCompiler.Text.Json

/-! Trees and tables as JSON values. A variant is an object with its name as the only key;
fields keep the order in which the type lists them. -/
namespace TinyCompiler

def Kind.toJson (k : Kind) : Json := .string k.name

def Expr.toJson : Expr → Json
  | integer value => .tagged "Integer" (.integer value.toInt)
  | boolean value => .tagged "Boolean" (.boolean value)
  | reference name binding =>
    .tagged "Identifier" (.object [("name", .string name), ("binding", .integer binding)])
  | unary op operand =>
    .tagged "Unary" (.object [("op", .string op.name), ("operand", operand.toJson)])
  | binary op left right =>
    .tagged "Binary"
      (.object [("op", .string op.name), ("left", left.toJson), ("right", right.toJson)])
  | comparison op left right =>
    .tagged "Logical"
      (.object [("op", .string op.name), ("left", left.toJson), ("right", right.toJson)])
  | connective op left right =>
    .tagged "Logical"
      (.object [("op", .string op.name), ("left", left.toJson), ("right", right.toJson)])

namespace Stmt

/-- Declarations and assignments have the same fields. -/
def bindingFields (name : String) (value : Expr) (binding : Nat) : Json :=
  .object [("name", .string name), ("value", value.toJson), ("binding", .integer binding)]

def branchFields (condition : Expr) (consequent alternate : Json) : Json :=
  .tagged "If"
    (.object [("cond", condition.toJson), ("consequent", consequent), ("alternate", alternate)])

mutual

def toJson : Stmt → Json
  | expr value => .tagged "Expr" value.toJson
  | declare name value binding => .tagged "Decl" (bindingFields name value binding)
  | assign name value binding => .tagged "Assign" (bindingFields name value binding)
  | ret value => .tagged "Return" value.toJson
  | ifThen condition consequent => branchFields condition (.array (blockJson consequent)) .null
  | ifElse condition consequent alternate =>
    branchFields condition (.array (blockJson consequent)) (.array (blockJson alternate))
  | loop condition body =>
    .tagged "ForSingle"
      (.object [("cond", condition.toJson), ("body", .array (blockJson body))])

def blockJson : List Stmt → List Json
  | [] => []
  | s :: rest => s.toJson :: blockJson rest

end

end Stmt

def Binding.toJson (b : Binding) : Json :=
  .object [("name", .string b.name), ("value", b.value.toJson)]

/-- The declared names in the order of their characters, which is the order of their UTF-8
bytes. -/
def SymbolTable.sortedEntries (t : SymbolTable) : List (String × Nat) :=
  t.entries.mergeSort fun a b => !decide (b.1 < a.1)

/-- The order of declaration is not written. -/
def SymbolTable.toJson (t : SymbolTable) : Json :=
  .object [("bindings", .array (t.bindings.toList.map Binding.toJson)),
    ("current", .object (t.sortedEntries.map fun entry => (entry.1, .integer entry.2)))]

def Program.toJson (p : Program) : Json :=
  .object [("statements", .array (Stmt.blockJson p.statements)), ("symbols", p.symbols.toJson)]

end TinyCompiler
