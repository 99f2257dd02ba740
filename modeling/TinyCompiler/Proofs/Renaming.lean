import Mathlib.Logic.Function.Basic
import TinyCompiler.Proofs.Replay

/-! Renaming: every name in a token, a tree, a table or an error is replaced by its image under a
map of names. If the map is injective, a table answers for the image of a name as it did for
the name. -/
namespace TinyCompiler

variable (f : String → String)

/-- Only identifiers hold names. -/
def Token.rename (t : Token) : Token :=
  if t.kind = .identifier then { t with lexeme := f t.lexeme } else t

def Expr.rename : Expr → Expr
  | integer value => integer value
  | boolean value => boolean value
  | reference name binding => reference (f name) binding
  | unary op operand => unary op operand.rename
  | binary op left right => binary op left.rename right.rename
  | comparison op left right => comparison op left.rename right.rename
  | connective op left right => connective op left.rename right.rename

namespace Stmt

mutual

def rename : Stmt → Stmt
  | expr value => expr (value.rename f)
  | declare name value binding => declare (f name) (value.rename f) binding
  | assign name value binding => assign (f name) (value.rename f) binding
  | ret value => ret (value.rename f)
  | ifThen condition consequent => ifThen (condition.rename f) (renameAll consequent)
  | ifElse condition consequent alternate =>
    ifElse (condition.rename f) (renameAll consequent) (renameAll alternate)
  | loop condition body => loop (condition.rename f) (renameAll body)

def renameAll : List Stmt → List Stmt
  | [] => []
  | s :: rest => s.rename :: renameAll rest

end

end Stmt

def Binding.rename (b : Binding) : Binding := ⟨f b.name, b.value.rename f⟩

def SymbolTable.rename (t : SymbolTable) : SymbolTable :=
  ⟨t.bindings.map (Binding.rename f), t.entries.map (Prod.map f id)⟩

def Parser.rename (p : Parser) : Parser :=
  { p with rest := p.rest.map (Token.rename f), symbols := p.symbols.rename f }

def Program.rename (p : Program) : Program :=
  ⟨Stmt.renameAll f p.statements, p.symbols.rename f⟩

def SyntaxError.rename : SyntaxError → SyntaxError
  | unexpected found => unexpected (found.rename f)
  | undeclared name line => undeclared (f name) line
  | unclosed expected found => unclosed expected (found.rename f)
  | outOfRange numeral line => outOfRange numeral line
  | tooDeep limit line => tooDeep limit line

variable {f}

namespace Token

@[simp] theorem kind_rename (t : Token) : (t.rename f).kind = t.kind := by
  unfold rename
  split <;> rfl

@[simp] theorem line_rename (t : Token) : (t.rename f).line = t.line := by
  unfold rename
  split <;> rfl

theorem lexeme_rename_of_identifier {t : Token} (h : t.kind = .identifier) :
    (t.rename f).lexeme = f t.lexeme := by simp [rename, h]

theorem rename_of_ne {t : Token} (h : t.kind ≠ .identifier) : t.rename f = t := by
  simp [rename, h]

end Token

theorem Token.rename_id : rename id = id := by
  funext t
  simp [rename]

theorem Expr.rename_id (e : Expr) : e.rename id = e := by
  induction e with
  | integer | boolean | reference => rfl
  | unary op operand ih => rw [rename, ih]
  | binary op left right ihl ihr => rw [rename, ihl, ihr]
  | comparison op left right ihl ihr => rw [rename, ihl, ihr]
  | connective op left right ihl ihr => rw [rename, ihl, ihr]

namespace Stmt

mutual

theorem rename_id : (s : Stmt) → s.rename id = s
  | expr value | declare _ value _ | assign _ value _ | ret value => by
    simp [rename, value.rename_id]
  | ifThen condition consequent => by
    rw [rename, condition.rename_id, renameAll_id consequent]
  | ifElse condition consequent alternate => by
    rw [rename, condition.rename_id, renameAll_id consequent, renameAll_id alternate]
  | loop condition body => by rw [rename, condition.rename_id, renameAll_id body]

theorem renameAll_id : (b : List Stmt) → renameAll id b = b
  | [] => rfl
  | s :: rest => by rw [renameAll, rename_id s, renameAll_id rest]

end

end Stmt

namespace SymbolTable

theorem rename_id (t : SymbolTable) : t.rename id = t := by
  have hbinding : Binding.rename id = id := by
    funext b
    simp [Binding.rename, Expr.rename_id]
  simp [rename, hbinding]

@[simp] theorem rename_empty : empty.rename f = empty := by simp [rename, empty]

theorem names_rename (t : SymbolTable) : (t.rename f).names = t.names.map f := by
  simp [rename, names, Prod.map_fst]

theorem size_rename (t : SymbolTable) : (t.rename f).size = t.size := by
  simp [rename, size]

theorem resolve_rename (t : SymbolTable) (index : Nat) :
    (t.rename f).resolve index = (t.resolve index).map (Binding.rename f) := by
  simp [rename, resolve]

section Injective

variable (hf : Function.Injective f)

include hf

theorem lookup_map (entries : List (String × Nat)) (name : String) :
    (entries.map (Prod.map f id)).lookup (f name) = entries.lookup name := by
  induction entries with
  | nil => rfl
  | cons entry rest ih =>
    obtain ⟨other, i⟩ := entry
    rw [List.map_cons, Prod.map_apply, List.lookup_cons, List.lookup_cons, ih]
    by_cases h : name = other
    · simp [h]
    · have hne : f name ≠ f other := fun he => h (hf he)
      simp [beq_false_of_ne h, beq_false_of_ne hne]

theorem lookup_rename (t : SymbolTable) (name : String) :
    (t.rename f).lookup (f name) = t.lookup name := lookup_map hf t.entries name

theorem contains_rename (t : SymbolTable) (name : String) :
    (t.rename f).contains (f name) = t.contains name := by
  rw [contains, contains, lookup_rename hf]

theorem point_map (name : String) (index : Nat) (entries : List (String × Nat)) :
    point (f name) index (entries.map (Prod.map f id)) =
      (point name index entries).map (Prod.map f id) := by
  induction entries with
  | nil => rfl
  | cons entry rest ih =>
    obtain ⟨other, i⟩ := entry
    by_cases h : other = name
    · simp [point, h]
    · have hne : f other ≠ f name := fun he => h (hf he)
      simp [point, h, hne, ih]

theorem declare_rename (t : SymbolTable) (name : String) (value : Expr) :
    (t.rename f).declare (f name) (value.rename f) =
      ((t.declare name value).1, (t.declare name value).2.rename f) := by
  simp [declare, rename, Binding.rename, point_map hf]

end Injective

end SymbolTable

theorem Program.rename_id (p : Program) : p.rename id = p := by
  rw [rename, Stmt.renameAll_id, SymbolTable.rename_id]

namespace Parser

variable (p : Parser)

theorem peek_rename : (p.rename f).peek = p.peek.rename f := by
  cases hr : p.rest with
  | nil =>
    simp only [rename, peek, hr, List.map_nil, List.head?_nil, Option.getD_none]
    exact (Token.rename_of_ne (by simp [Token.endOfInput])).symm
  | cons t ts => simp [rename, peek, hr]

theorem kind_peekSecond_rename : (p.rename f).peekSecond.kind = p.peekSecond.kind := by
  cases hr : p.rest.tail with
  | nil => simp [rename, peekSecond, ← List.map_tail, hr]
  | cons t ts => simp [rename, peekSecond, ← List.map_tail, hr]

theorem advance_rename : p.advance.rename f = (p.rename f).advance := by
  by_cases h : p.peek.kind = .endOfInput
  · have h' : (p.rename f).peek.kind = .endOfInput := by rwa [peek_rename, Token.kind_rename]
    rw [advance, advance, if_pos h, if_pos h']
  · have h' : (p.rename f).peek.kind ≠ .endOfInput := by rwa [peek_rename, Token.kind_rename]
    rw [advance, advance, if_neg h, if_neg h']
    simp [rename, List.map_tail]

theorem start_rename (tokens : List Token) (limit : Nat) :
    start (tokens.map (Token.rename f)) limit = (start tokens limit).rename f := by
  have hline : Token.line ∘ Token.rename f = Token.line := funext Token.line_rename
  simp [start, rename, List.getLast?_map, Option.map_map, hline, SymbolTable.rename_empty]

end Parser

end TinyCompiler
