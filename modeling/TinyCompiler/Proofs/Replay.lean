import TinyCompiler.Proofs.Derivation

/-! Statements replayed on a table of names: in the order of the source, through all blocks, each
declaration and each assignment appends its entry. A table built in this way is told by the
list of the names it has bound. -/
namespace TinyCompiler

open Grammar

namespace Stmt

mutual

def replay (t : SymbolTable) : Stmt → SymbolTable
  | expr _ | ret _ => t
  | declare name value _ | assign name value _ => (t.declare name value).2
  | ifThen _ consequent => replayAll t consequent
  | ifElse _ consequent alternate => replayAll (replayAll t consequent) alternate
  | loop _ body => replayAll t body

def replayAll (t : SymbolTable) : List Stmt → SymbolTable
  | [] => t
  | s :: rest => replayAll (s.replay t) rest

end

end Stmt

namespace Grammar

theorem latest?_append (name other : String) (scope : List String) :
    latest? name (scope ++ [other]) =
      if other = name then some scope.length else latest? name scope := by
  induction scope with
  | nil => rfl
  | cons first scope ih =>
    rw [List.cons_append, latest?, ih]
    by_cases h : other = name
    · simp [h]
    · simp only [if_neg h, latest?]

theorem latest?_isSome {name : String} {scope : List String} :
    (latest? name scope).isSome = true ↔ name ∈ scope := by
  induction scope with
  | nil => simp [latest?]
  | cons first scope ih =>
    rw [latest?]
    cases h : latest? name scope with
    | some i => simp [ih.mp (by simp [h])]
    | none =>
      have hn : name ∉ scope := fun hm => by simpa [h] using ih.mpr hm
      by_cases hf : first = name
      · simp [hf]
      · simp [hf, hn, Ne.symm hf]

namespace Mention

@[simp] theorem bound_nil : bound [] = [] := rfl
@[simp] theorem bound_cons_use (name : String) (rest : List Mention) :
    bound (use name :: rest) = bound rest := rfl
@[simp] theorem bound_cons_bind (name : String) (rest : List Mention) :
    bound (bind name :: rest) = name :: bound rest := rfl

theorem bound_append (a b : List Mention) : bound (a ++ b) = bound a ++ bound b :=
  List.filterMap_append

theorem mem_bound {name : String} {mentions : List Mention} :
    name ∈ bound mentions ↔ bind name ∈ mentions := by
  induction mentions with
  | nil => simp
  | cons m mentions ih => cases m <;> simp [ih]

/-- Every name used stands in the scope, or has been bound before. -/
def Covered : List String → List Mention → Prop
  | _, [] => True
  | scope, use name :: rest => name ∈ scope ∧ Covered scope rest
  | scope, bind name :: rest => Covered (scope ++ [name]) rest

theorem covered_append {scope : List String} {a b : List Mention} :
    Covered scope (a ++ b) ↔ Covered scope a ∧ Covered (scope ++ bound a) b := by
  induction a generalizing scope with
  | nil => simp [Covered]
  | cons m a ih =>
    cases m with
    | use name => simp [Covered, ih, and_assoc]
    | bind name => simp [Covered, ih]

theorem covered_uses {scope names : List String} :
    Covered scope (names.map use) ↔ ∀ name ∈ names, name ∈ scope := by
  induction names with
  | nil => simp [Covered]
  | cons name names ih => simp [Covered, ih]

theorem bound_uses (names : List String) : bound (names.map use) = [] := by
  induction names with
  | nil => rfl
  | cons name names ih => exact ih

theorem covered_iff {scope : List String} {mentions : List Mention} :
    Covered scope mentions ↔ ∀ before name after, mentions = before ++ use name :: after →
      name ∈ scope ∨ bind name ∈ before := by
  constructor
  · rintro h before name after rfl
    obtain ⟨-, hn, -⟩ := covered_append.mp h
    rwa [List.mem_append, mem_bound] at hn
  · intro h
    induction mentions generalizing scope with
    | nil => trivial
    | cons m mentions ih =>
      cases m with
      | use name =>
        refine ⟨(h [] name mentions rfl).resolve_right (by simp), ih ?_⟩
        intro before other after he
        simpa using h (use name :: before) other after (by rw [he]; rfl)
      | bind name =>
        refine ih fun before other after he => ?_
        have := h (bind name :: before) other after (by rw [he]; rfl)
        simpa [or_assoc] using this

theorem covered_nil_iff {mentions : List Mention} : Covered [] mentions ↔ Declared mentions := by
  simp [covered_iff, Declared]

end Mention

end Grammar

namespace SymbolTable

/-- The scope lists the names of the table's bindings, and each name has its latest one. -/
structure Tracks (t : SymbolTable) (scope : List String) : Prop where
  names : t.bindings.toList.map Binding.name = scope
  latest : ∀ name, t.lookup name = latest? name scope

variable {t : SymbolTable} {scope : List String}

theorem tracks_empty : empty.Tracks [] := ⟨rfl, fun _ => rfl⟩

theorem Tracks.size (h : t.Tracks scope) : t.bindings.size = scope.length := by
  rw [← h.names, List.length_map, Array.length_toList]

theorem Tracks.contains (h : t.Tracks scope) (name : String) :
    t.contains name = true ↔ name ∈ scope := by
  rw [SymbolTable.contains, h.latest, latest?_isSome]

theorem Tracks.declare (h : t.Tracks scope) (name : String) (value : Expr) :
    (t.declare name value).2.Tracks (scope ++ [name]) := by
  refine ⟨?_, fun other => ?_⟩
  · simp [SymbolTable.declare, h.names]
  · rw [lookup_declare, latest?_append, h.size, h.latest]
    simp [eq_comm]

end SymbolTable

namespace Grammar

theorem Phrase.bound_uses {l : Level} (P : Phrase l) : Mention.bound P.uses = [] :=
  Mention.bound_uses P.names

mutual

theorem Sentence.tracks_replay {t : SymbolTable} {scope : List String} (h : t.Tracks scope) :
    (D : Sentence) → ((D.tree scope).replay t).Tracks (scope ++ Mention.bound D.mentions)
  | .expr value => by
    simpa [Sentence.tree, Stmt.replay, Sentence.mentions, Phrase.bound_uses] using h
  | .declare target mark value => by
    simpa [Sentence.tree, Stmt.replay, Sentence.mentions, Mention.bound_append,
      Phrase.bound_uses] using h.declare target.1.lexeme _
  | .assign target mark value => by
    simpa [Sentence.tree, Stmt.replay, Sentence.mentions, Mention.bound_append,
      Phrase.bound_uses] using h.declare target.1.lexeme _
  | .ret word value => by
    simpa [Sentence.tree, Stmt.replay, Sentence.mentions, Phrase.bound_uses] using h
  | .ifThen word condition consequent => by
    simpa [Sentence.tree, Stmt.replay, Sentence.mentions, Mention.bound_append,
      Phrase.bound_uses] using Block.tracks_replay h consequent
  | .ifElse word condition consequent elseWord alternate => by
    have hc := Block.tracks_replay h consequent
    simpa [Sentence.tree, Stmt.replay, Sentence.mentions, Mention.bound_append,
      Phrase.bound_uses] using Block.tracks_replay hc alternate
  | .loop word condition body => by
    simpa [Sentence.tree, Stmt.replay, Sentence.mentions, Mention.bound_append,
      Phrase.bound_uses] using Block.tracks_replay h body

theorem Block.tracks_replay {t : SymbolTable} {scope : List String} (h : t.Tracks scope) :
    (B : Block) → (Stmt.replayAll t (B.trees scope)).Tracks (scope ++ Mention.bound B.mentions)
  | .braces _ body _ => Text.tracks_replay h body

theorem Text.tracks_replay {t : SymbolTable} {scope : List String} (h : t.Tracks scope) :
    (T : Text) → (Stmt.replayAll t (T.trees scope)).Tracks (scope ++ Mention.bound T.mentions)
  | .nil => by simpa [Text.trees, Stmt.replayAll, Text.mentions, Mention.bound] using h
  | .cons s semicolon rest => by
    have hs := Sentence.tracks_replay h s
    simpa [Text.trees, Stmt.replayAll, Text.mentions, Mention.bound_append] using
      Text.tracks_replay hs rest

end

end Grammar

end TinyCompiler
