import TinyCompiler.Proofs.LoweredForms
import TinyCompiler.Proofs.Scoping

/-! Trees linked to a table. They are the trees that lower. What is traced from a table on is
linked to the table behind it, and to every later one: later entries neither move a binding nor
take a name away. -/
namespace TinyCompiler

open Lowering

/-- Every reference points at a binding of its name, and the name has a slot. -/
def Expr.Linked (t : SymbolTable) : Expr → Prop
  | integer _ | boolean _ => True
  | reference name index =>
    (t.resolve index).map Binding.name = some name ∧ name ∈ t.names
  | unary _ operand => operand.Linked t
  | binary _ left right | comparison _ left right | connective _ left right =>
    left.Linked t ∧ right.Linked t

namespace Stmt

mutual

/-- What the statement reads is linked, and what it writes has a slot. -/
def Linked (t : SymbolTable) : Stmt → Prop
  | expr value | ret value => value.Linked t
  | declare name value _ | assign name value _ => value.Linked t ∧ name ∈ t.names
  | ifThen condition consequent => condition.Linked t ∧ LinkedAll t consequent
  | ifElse condition consequent alternate =>
    condition.Linked t ∧ LinkedAll t consequent ∧ LinkedAll t alternate
  | loop condition body => condition.Linked t ∧ LinkedAll t body

def LinkedAll (t : SymbolTable) : List Stmt → Prop
  | [] => True
  | s :: rest => s.Linked t ∧ LinkedAll t rest

end

theorem linkedAll_iff {t : SymbolTable} {b : List Stmt} :
    LinkedAll t b ↔ ∀ s ∈ b, s.Linked t := by
  induction b with
  | nil => simp [LinkedAll]
  | cons s rest ih => simp [LinkedAll, ih]

end Stmt

variable {t t' : SymbolTable}

theorem SymbolTable.exists_slot_iff {name : String} :
    (∃ offset, t.slot? name = some offset) ↔ name ∈ t.names := by
  rw [← Option.isSome_iff_exists, slot?, Option.isSome_map, List.isSome_idxOf?]

namespace Lowering

def Succeeds (m : Lowering (List Line)) (n : Nat) : Prop := ∃ block n', Gives m n block n'

/-- Two lowerings in a row succeed if each does; the count that the first leaves is any. -/
theorem exists_gives_both {first second : Lowering (List Line)} {P Q : Prop}
    (hfirst : ∀ n, first.Succeeds n ↔ P) (hsecond : ∀ n, second.Succeeds n ↔ Q)
    (frame : List Line → List Line → List Line) (n : Nat) :
    (∃ block n' l m, Gives first n l m ∧ ∃ r, Gives second m r n' ∧ block = frame l r) ↔
      P ∧ Q := by
  constructor
  · rintro ⟨_, n', l, m, hl, r, hr, -⟩
    exact ⟨(hfirst n).mp ⟨l, m, hl⟩, (hsecond m).mp ⟨r, n', hr⟩⟩
  · rintro ⟨hp, hq⟩
    obtain ⟨l, m, hl⟩ := (hfirst n).mpr hp
    obtain ⟨r, n', hr⟩ := (hsecond m).mpr hq
    exact ⟨_, n', l, m, hl, r, hr, rfl⟩

end Lowering

theorem Expr.succeeds_iff : (e : Expr) → (n : Nat) → ((e.lower t).Succeeds n ↔ e.Linked t)
  | integer _, n => by simp [Succeeds, lower_integer, Linked]
  | boolean _, n => by simp [Succeeds, lower_boolean, Linked]
  | reference name index, n => by
    simp [Succeeds, lower_reference, Linked, ← SymbolTable.exists_slot_iff]
  | unary op operand, n => by
    rw [Linked, ← succeeds_iff operand n]
    simp only [Succeeds, lower_unary]
    grind
  | binary op left right, n => by
    simp only [Succeeds, lower_binary]
    exact exists_gives_both (succeeds_iff left) (succeeds_iff right) _ n
  | comparison op left right, n => by
    simp only [Succeeds, lower_comparison]
    exact exists_gives_both (succeeds_iff left) (succeeds_iff right) _ n
  | connective op left right, n => by
    simp only [Succeeds, lower_connective]
    exact exists_gives_both (succeeds_iff left) (succeeds_iff right) (op.frame n) (n + 2)

namespace Stmt

theorem lowerStore_succeeds_iff {name : String} {value : Expr} {n : Nat} :
    (lowerStore t name value).Succeeds n ↔ value.Linked t ∧ name ∈ t.names := by
  rw [← value.succeeds_iff n, ← SymbolTable.exists_slot_iff]
  simp only [Succeeds, gives_lowerStore]
  grind

mutual

theorem succeeds_iff : (s : Stmt) → (n : Nat) → ((s.lower t).Succeeds n ↔ s.Linked t)
  | expr value, n => value.succeeds_iff n
  | declare _ _ _, n | assign _ _ _, n => lowerStore_succeeds_iff
  | ret value, n => by
    rw [Linked, ← value.succeeds_iff n]
    simp only [Succeeds, lower_ret]
    grind
  | ifThen condition consequent, n => by
    simp only [Succeeds, lower_ifThen]
    exact exists_gives_both condition.succeeds_iff (succeedsAll_iff consequent)
      (branch n · · []) (n + 2)
  | ifElse condition consequent alternate, n => by
    simp only [Succeeds, lower_ifElse]
    constructor
    · rintro ⟨_, n', c, m, hc, b, k, hb, a, ha, -⟩
      exact ⟨(condition.succeeds_iff _).mp ⟨c, m, hc⟩, (succeedsAll_iff consequent m).mp ⟨b, k, hb⟩,
        (succeedsAll_iff alternate k).mp ⟨a, n', ha⟩⟩
    · rintro ⟨hcondition, hconsequent, halternate⟩
      obtain ⟨c, m, hc⟩ := (condition.succeeds_iff (n + 2)).mpr hcondition
      obtain ⟨b, k, hb⟩ := (succeedsAll_iff consequent m).mpr hconsequent
      obtain ⟨a, n', ha⟩ := (succeedsAll_iff alternate k).mpr halternate
      exact ⟨_, n', c, m, hc, b, k, hb, a, ha, rfl⟩
  | loop condition body, n => by
    simp only [Succeeds, lower_loop]
    exact exists_gives_both condition.succeeds_iff (succeedsAll_iff body) (cycle n) (n + 2)

theorem succeedsAll_iff : (b : List Stmt) → (n : Nat) →
    ((lowerBlock t b).Succeeds n ↔ LinkedAll t b)
  | [], n => by simp [Succeeds, lowerBlock_nil, LinkedAll]
  | s :: rest, n => by
    simp only [Succeeds, lowerBlock_cons]
    exact exists_gives_both (succeeds_iff s) (succeedsAll_iff rest) _ n

end

end Stmt

/-- Programs assemble exactly if their statements are linked to their table. -/
theorem Program.exists_assembly_iff {p : Program} {entry : String} :
    (∃ text, p.assembly entry = .ok text) ↔ Stmt.LinkedAll p.symbols p.statements := by
  rw [← Stmt.succeedsAll_iff p.statements 0, Succeeds]
  constructor
  · rintro ⟨text, h⟩
    obtain ⟨lines, hlines, -⟩ := assembly_eq_ok.mp h
    obtain ⟨body, n, hbody, -⟩ := assemble_eq_ok.mp hlines
    exact ⟨body, n, hbody⟩
  · rintro ⟨body, n, hbody⟩
    exact ⟨_, assembly_eq_ok.mpr ⟨_, assemble_eq_ok.mpr ⟨body, n, hbody, rfl⟩, rfl⟩⟩

/-- The entries of the first table stay where they are, and its names stay declared. -/
structure SymbolTable.Extends (t t' : SymbolTable) : Prop where
  bindings : t.bindings.toList <+: t'.bindings.toList
  names : t.names ⊆ t'.names

namespace SymbolTable

theorem Extends.refl (t : SymbolTable) : t.Extends t := ⟨List.prefix_rfl, List.Subset.refl _⟩

theorem Extends.trans {t₁ t₂ t₃ : SymbolTable} (h : t₁.Extends t₂) (h' : t₂.Extends t₃) :
    t₁.Extends t₃ :=
  ⟨h.bindings.trans h'.bindings, List.Subset.trans h.names h'.names⟩

theorem extends_declare (t : SymbolTable) (name : String) (value : Expr) :
    t.Extends (t.declare name value).2 := by
  refine ⟨by simp [declare], ?_⟩
  rw [names_declare]
  split <;> simp

theorem mem_names_declare (t : SymbolTable) (name : String) (value : Expr) :
    name ∈ (t.declare name value).2.names := by
  rw [names_declare]
  split <;> simp [*]

theorem Extends.resolve (h : t.Extends t') {index : Nat} {b : Binding}
    (hb : t.resolve index = some b) : t'.resolve index = some b := by
  rw [SymbolTable.resolve, ← Array.getElem?_toList] at hb ⊢
  obtain ⟨more, hmore⟩ := h.bindings
  rw [← hmore, List.getElem?_append_left (List.getElem?_eq_some_iff.mp hb).1, hb]

theorem mem_names_of_lookup {name : String} {index : Nat} (h : t.lookup name = some index) :
    name ∈ t.names := by
  obtain ⟨before, after, hentries, -⟩ := List.lookup_eq_some_iff.mp h
  simp [names, hentries]

end SymbolTable

theorem Grammar.getElem?_of_latest? {name : String} {scope : List String} {i : Nat}
    (h : latest? name scope = some i) : scope[i]? = some name := by
  induction scope generalizing i with
  | nil => cases h
  | cons first scope ih =>
    rw [latest?] at h
    split at h
    next j hj =>
      cases h
      exact ih hj
    next hnone =>
      split at h
      next hfirst =>
        cases h
        rw [hfirst]
        rfl
      next => cases h

variable {scope : List String}

theorem SymbolTable.Tracks.resolve (h : t.Tracks scope) {name : String} {index : Nat}
    (hi : t.lookup name = some index) :
    (t.resolve index).map Binding.name = some name := by
  rw [h.latest] at hi
  rw [SymbolTable.resolve, ← Array.getElem?_toList, ← List.getElem?_map, h.names,
    Grammar.getElem?_of_latest? hi]

theorem Expr.Linked.mono (h : t.Extends t') : {e : Expr} → e.Linked t → e.Linked t'
  | integer _, _ | boolean _, _ => trivial
  | reference name index, he => by
    obtain ⟨b, hb, hn⟩ := Option.map_eq_some_iff.mp he.1
    exact ⟨by rw [h.resolve hb, Option.map_some, hn], h.names he.2⟩
  | unary _ operand, he => Linked.mono (e := operand) h he
  | binary _ left right, he | comparison _ left right, he | connective _ left right, he =>
    ⟨Linked.mono (e := left) h he.1, Linked.mono (e := right) h he.2⟩

theorem Expr.linked_of_resolved (h : t.Tracks scope) : (e : Expr) → e.Resolved t → e.Linked t
  | integer _, _ | boolean _, _ => trivial
  | reference _ _, he => ⟨h.resolve he, SymbolTable.mem_names_of_lookup he⟩
  | unary _ operand, he => linked_of_resolved h operand he
  | binary _ left right, he | comparison _ left right, he | connective _ left right, he =>
    ⟨linked_of_resolved h left he.1, linked_of_resolved h right he.2⟩

namespace Stmt

mutual

theorem extends_replay (t : SymbolTable) : (s : Stmt) → t.Extends (s.replay t)
  | expr _ | ret _ => .refl t
  | declare name value _ | assign name value _ => t.extends_declare name value
  | ifThen _ consequent => extends_replayAll t consequent
  | ifElse _ consequent alternate =>
    (extends_replayAll t consequent).trans (extends_replayAll _ alternate)
  | loop _ body => extends_replayAll t body

theorem extends_replayAll (t : SymbolTable) : (b : List Stmt) → t.Extends (replayAll t b)
  | [] => .refl t
  | s :: rest => (extends_replay t s).trans (extends_replayAll _ rest)

end

mutual

theorem exists_tracks_replay {t : SymbolTable} {scope : List String} (h : t.Tracks scope) :
    (s : Stmt) → ∃ scope', (s.replay t).Tracks scope'
  | expr _ | ret _ => ⟨scope, h⟩
  | declare name value _ | assign name value _ => ⟨_, h.declare name value⟩
  | ifThen _ consequent => exists_tracks_replayAll h consequent
  | ifElse _ consequent alternate =>
    have ⟨_, hconsequent⟩ := exists_tracks_replayAll h consequent
    exists_tracks_replayAll hconsequent alternate
  | loop _ body => exists_tracks_replayAll h body

theorem exists_tracks_replayAll {t : SymbolTable} {scope : List String} (h : t.Tracks scope) :
    (b : List Stmt) → ∃ scope', (replayAll t b).Tracks scope'
  | [] => ⟨scope, h⟩
  | s :: rest =>
    have ⟨_, hs⟩ := exists_tracks_replay h s
    exists_tracks_replayAll hs rest

end

mutual

theorem Linked.mono {t t' : SymbolTable} (h : t.Extends t') :
    {s : Stmt} → s.Linked t → s.Linked t'
  | expr _, hs | ret _, hs => Expr.Linked.mono h hs
  | declare _ _ _, hs | assign _ _ _, hs => ⟨hs.1.mono h, h.names hs.2⟩
  | ifThen _ _, hs | loop _ _, hs => ⟨hs.1.mono h, LinkedAll.mono h hs.2⟩
  | ifElse _ _ _, hs => ⟨hs.1.mono h, LinkedAll.mono h hs.2.1, LinkedAll.mono h hs.2.2⟩

theorem LinkedAll.mono {t t' : SymbolTable} (h : t.Extends t') :
    {b : List Stmt} → LinkedAll t b → LinkedAll t' b
  | [], _ => trivial
  | _ :: _, hb => ⟨hb.1.mono h, LinkedAll.mono h hb.2⟩

end

mutual

theorem linked_of_traced {t : SymbolTable} {scope : List String} (h : t.Tracks scope) :
    (s : Stmt) → s.Traced t → s.Linked (s.replay t)
  | expr value, hs | ret value, hs => value.linked_of_resolved h hs
  | declare name value _, hs | assign name value _, hs =>
    ⟨(value.linked_of_resolved h hs.1).mono (t.extends_declare name value),
      t.mem_names_declare name value⟩
  | ifThen condition body, hs | loop condition body, hs =>
    ⟨(condition.linked_of_resolved h hs.1).mono (extends_replayAll t body),
      linkedAll_of_traced h body hs.2⟩
  | ifElse condition consequent alternate, ⟨hcondition, hconsequent, halternate⟩ => by
    obtain ⟨_, htracks⟩ := exists_tracks_replayAll h consequent
    have hlater := extends_replayAll (replayAll t consequent) alternate
    exact ⟨(condition.linked_of_resolved h hcondition).mono
        ((extends_replayAll t consequent).trans hlater),
      (linkedAll_of_traced h consequent hconsequent).mono hlater,
      linkedAll_of_traced htracks alternate halternate⟩

theorem linkedAll_of_traced {t : SymbolTable} {scope : List String} (h : t.Tracks scope) :
    (b : List Stmt) → TracedAll t b → LinkedAll (replayAll t b) b
  | [], _ => trivial
  | s :: rest, ⟨hs, hrest⟩ => by
    obtain ⟨_, htracks⟩ := exists_tracks_replay h s
    exact ⟨(linked_of_traced h s hs).mono (extends_replayAll _ rest),
      linkedAll_of_traced htracks rest hrest⟩

end

end Stmt

end TinyCompiler
