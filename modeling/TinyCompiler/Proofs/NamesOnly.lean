import Mathlib.Logic.Equiv.Basic
import TinyCompiler.Proofs.CoupledStatements
import TinyCompiler.Proofs.LoweringSucceeds

/-! Names are only names. A parse of renamed tokens gives the renamed program or stops at the same
token, and a slot is found through the place of a name among the names, so that the code stays
as it was. -/
namespace TinyCompiler

open Lowering

variable {f : String → String}

section Lowering

variable {t : SymbolTable} {block : List Line} {n n' : Nat}

theorem SymbolTable.slot?_rename (hf : Function.Injective f) (t : SymbolTable) (name : String) :
    (t.rename f).slot? (f name) = t.slot? name := by
  have hsame : (fun other => other == f name) ∘ f = fun other => other == name := by
    funext other
    simp [hf.eq_iff]
  rw [slot?, slot?, names_rename, List.idxOf?, List.findIdx?_map, hsame]
  rfl

theorem Expr.gives_rename (hf : Function.Injective f) (e : Expr) :
    Gives ((e.rename f).lower (t.rename f)) n block n' ↔ Gives (e.lower t) n block n' := by
  induction e generalizing n n' block with
  | integer value => exact Iff.rfl
  | boolean value => exact Iff.rfl
  | reference name binding =>
    have hname : ((t.rename f).resolve binding).map Binding.name = some (f name) ↔
        (t.resolve binding).map Binding.name = some name := by
      cases hb : t.resolve binding <;>
        simp [SymbolTable.resolve_rename, hb, Binding.rename, hf.eq_iff]
    rw [rename, lower_reference, lower_reference, hname, SymbolTable.slot?_rename hf]
  | unary op operand ih => simp only [rename, lower_unary, ih]
  | binary op left right ihl ihr => simp only [rename, lower_binary, ihl, ihr]
  | comparison op left right ihl ihr => simp only [rename, lower_comparison, ihl, ihr]
  | connective op left right ihl ihr => simp only [rename, lower_connective, ihl, ihr]

namespace Stmt

theorem gives_lowerStore_rename (hf : Function.Injective f) (name : String) (value : Expr) :
    Gives (lowerStore (t.rename f) (f name) (value.rename f)) n block n' ↔
      Gives (lowerStore t name value) n block n' := by
  simp only [gives_lowerStore, value.gives_rename hf, SymbolTable.slot?_rename hf]

mutual

theorem gives_rename (hf : Function.Injective f) {n n' : Nat} {block : List Line} : (s : Stmt) →
    (Gives ((s.rename f).lower (t.rename f)) n block n' ↔ Gives (s.lower t) n block n')
  | expr value => value.gives_rename hf
  | declare name value _ | assign name value _ => gives_lowerStore_rename hf name value
  | ret value => by simp only [rename, lower_ret, value.gives_rename hf]
  | ifThen condition consequent => by
    simp only [rename, lower_ifThen, condition.gives_rename hf, gives_renameAll hf consequent]
  | ifElse condition consequent alternate => by
    simp only [rename, lower_ifElse, condition.gives_rename hf, gives_renameAll hf consequent,
      gives_renameAll hf alternate]
  | loop condition body => by
    simp only [rename, lower_loop, condition.gives_rename hf, gives_renameAll hf body]

theorem gives_renameAll (hf : Function.Injective f) {n n' : Nat} {block : List Line} :
    (b : List Stmt) →
    (Gives (lowerBlock (t.rename f) (renameAll f b)) n block n' ↔
      Gives (lowerBlock t b) n block n')
  | [] => Iff.rfl
  | s :: rest => by
    simp only [renameAll, lowerBlock_cons, gives_rename hf s, gives_renameAll hf rest]

end

end Stmt

theorem Program.assembly_rename (hf : Function.Injective f) (p : Program) {entry text : String} :
    (p.rename f).assembly entry = .ok text ↔ p.assembly entry = .ok text := by
  have hframe : (p.rename f).symbols.frameSize = p.symbols.frameSize := by
    rw [SymbolTable.frameSize, SymbolTable.frameSize, Program.rename, SymbolTable.size_rename]
  have hbody (body : List Line) (n : Nat) :
      Gives (Stmt.lowerBlock (p.rename f).symbols (p.rename f).statements) 0 body n ↔
        Gives (Stmt.lowerBlock p.symbols p.statements) 0 body n :=
    Stmt.gives_renameAll hf p.statements
  simp only [assembly_eq_ok, assemble_eq_ok, hframe, hbody]

end Lowering

def Coupling.names (hf : Function.Injective f) : Coupling where
  name := f
  name_injective := hf
  Pair p q := q = p.rename f
  Parted _ _ := False
  kind := by
    rintro p _ rfl
    rw [p.peek_rename, Token.kind_rename]
  lexeme := by
    rintro p _ rfl -
    rw [p.peek_rename]
  secondKind := by
    rintro p _ rfl -
    exact p.kind_peekSecond_rename
  symbols := by
    rintro p _ rfl
    rfl
  depth := by
    rintro p _ rfl
    rfl
  advance := by
    rintro p _ rfl
    exact p.advance_rename.symm
  set_depth := by
    rintro p _ d rfl
    rfl
  set_symbols := by
    rintro p _ t rfl
    rfl
  deepen := by
    rintro p _ rfl
    exact .inl Iff.rfl
  parted_depth _ h := h
  parted_ahead h _ := h

theorem Halt.error_rename {halt : Halt} {p : Parser} (h : halt.Meets p) :
    halt.error (p.rename f) = (halt.error p).rename f := by
  cases halt with
  | unexpected | unclosed => simp [error, SyntaxError.rename, p.peek_rename]
  | tooDeep =>
    rw [error, error, SyntaxError.rename, p.peek_rename, Token.line_rename]
    rfl
  | undeclared =>
    rw [error, error, SyntaxError.rename, p.peek_rename, Token.line_rename,
      Token.lexeme_rename_of_identifier h.1]
  | outOfRange =>
    rw [error, error, SyntaxError.rename, p.peek_rename, Token.rename_of_ne (by rw [h.1]; decide)]

theorem parse_rename (hf : Function.Injective f) (tokens : List Token) (limit : Nat) :
    parse (tokens.map (Token.rename f)) limit =
      ((parse tokens limit).map (Program.rename f)).mapError (SyntaxError.rename f) := by
  obtain ⟨program, hok, hok'⟩ | ⟨halt, hq, hp, herror, herror'⟩ | ⟨hparted, -⟩ :=
    (Coupling.names hf).parse_cases (Parser.start_rename tokens limit) (List.length_map _)
  · rw [hok, hok']
    rfl
  · rw [herror, herror', show _ = Parser.rename f _ from hq, halt.error_rename hp]
    rfl
  · exact hparted.elim

/-- Compilation commutes with renaming: the program, the table and the error of renamed tokens
are the renamed ones, and the assembly is the same. -/
theorem compilation_commutes_with_renaming (hf : Function.Injective f) (tokens : List Token)
    (limit : Nat) (entry : String) :
    parse (tokens.map (Token.rename f)) limit =
        ((parse tokens limit).map (Program.rename f)).mapError (SyntaxError.rename f) ∧
      ∀ program, parse tokens limit = .ok program →
        ∃ text, program.assembly entry = .ok text ∧
          (program.rename f).assembly entry = .ok text := by
  refine ⟨parse_rename hf tokens limit, fun program hp => ?_⟩
  obtain ⟨text, htext⟩ := exists_assembly_of_parse hp entry
  exact ⟨text, htext, (program.assembly_rename hf).mpr htext⟩

/-- Two names are swapped, and with them the order in which they would be sorted. -/
theorem exists_swapped_names : ∃ (f : String → String) (tokens : List Token) (program : Program)
    (text : String), Function.Injective f ∧ f "a" = "b" ∧
      parse tokens 2 = .ok program ∧ program.symbols.names = ["a", "b"] ∧
      parse (tokens.map (Token.rename f)) 2 = .ok (program.rename f) ∧
      (program.rename f).symbols.names = ["b", "a"] ∧
      program.assembly "main" = .ok text ∧ (program.rename f).assembly "main" = .ok text := by
  let f : String → String := Equiv.swap "a" "b"
  have hf : Function.Injective f := (Equiv.swap "a" "b").injective
  let tokens : List Token := [⟨.identifier, "a", 1⟩, ⟨.colonEqual, ":=", 1⟩, ⟨.integer, "1", 1⟩,
    ⟨.semicolon, ";", 1⟩, ⟨.identifier, "b", 1⟩, ⟨.colonEqual, ":=", 1⟩, ⟨.identifier, "a", 1⟩,
    .endOfInput 1]
  let program : Program :=
    ⟨[.declare "a" (.integer 1) 0, .declare "b" (.reference "a" 0) 1],
      ⟨#[⟨"a", .integer 1⟩, ⟨"b", .reference "a" 0⟩], [("a", 0), ("b", 1)]⟩⟩
  have hparse : parse tokens 2 = .ok program := by decide +kernel
  obtain ⟨hrenamed, hassembly⟩ := compilation_commutes_with_renaming hf tokens 2 "main"
  obtain ⟨text, htext, htext'⟩ := hassembly program hparse
  rw [hparse] at hrenamed
  exact ⟨f, tokens, program, text, hf, by decide, hparse, by decide, hrenamed, by decide, htext,
    htext'⟩

end TinyCompiler
