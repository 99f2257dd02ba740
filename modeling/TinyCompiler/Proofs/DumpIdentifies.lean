import TinyCompiler.Proofs.JsonReading
import TinyCompiler.Proofs.TableHistory
import TinyCompiler.Syntax.Encoding

/-! The dump of a program identifies it, whatever its names are and wherever its indices point. Each
variant has a tag of its own and each operator a name of its own under its tag. The order of the
names in the table is not written, but the entries tell it. -/
namespace TinyCompiler

theorem UnaryOp.name_injective : Function.Injective name := by
  intro op op' h
  cases op <;> cases op' <;> first | rfl | exact absurd h (by decide)

theorem BinaryOp.name_injective : Function.Injective name := by
  intro op op' h
  cases op <;> cases op' <;> first | rfl | exact absurd h (by decide)

theorem Comparison.name_injective : Function.Injective name := by
  intro op op' h
  cases op <;> cases op' <;> first | rfl | exact absurd h (by decide)

theorem Connective.name_injective : Function.Injective name := by
  intro op op' h
  cases op <;> cases op' <;> first | rfl | exact absurd h (by decide)

/-- Comparisons and connectives stand under one tag. -/
theorem Comparison.name_ne (op : Comparison) (op' : Connective) : op.name ≠ op'.name := by
  cases op <;> cases op' <;> decide

namespace Expr

theorem toJson_injective : Function.Injective toJson := by
  intro e
  induction e with
  | integer value =>
    intro e' h
    cases e' with
    | integer value' =>
      simp only [toJson, Json.tagged, Json.object.injEq, List.cons.injEq, Prod.mk.injEq,
        Json.integer.injEq, true_and, and_true] at h
      rw [Int64.toInt_inj.mp h]
    | boolean | reference | unary | binary | comparison | connective =>
      simp [toJson, Json.tagged] at h
  | boolean value =>
    intro e' h
    cases e' with
    | boolean value' => simpa [toJson, Json.tagged] using h
    | integer | reference | unary | binary | comparison | connective =>
      simp [toJson, Json.tagged] at h
  | reference name index =>
    intro e' h
    cases e' with
    | reference name' index' => simpa [toJson, Json.tagged] using h
    | integer | boolean | unary | binary | comparison | connective =>
      simp [toJson, Json.tagged] at h
  | unary op operand ih =>
    intro e' h
    cases e' with
    | unary op' operand' =>
      obtain ⟨hop, hoperand⟩ : op.name = op'.name ∧ operand.toJson = operand'.toJson := by
        simpa [toJson, Json.tagged] using h
      rw [UnaryOp.name_injective hop, ih hoperand]
    | integer | boolean | reference | binary | comparison | connective =>
      simp [toJson, Json.tagged] at h
  | binary op left right ihl ihr =>
    intro e' h
    cases e' with
    | binary op' left' right' =>
      obtain ⟨hop, hleft, hright⟩ : op.name = op'.name ∧ left.toJson = left'.toJson ∧
          right.toJson = right'.toJson := by
        simpa [toJson, Json.tagged] using h
      rw [BinaryOp.name_injective hop, ihl hleft, ihr hright]
    | integer | boolean | reference | unary | comparison | connective =>
      simp [toJson, Json.tagged] at h
  | comparison op left right ihl ihr =>
    intro e' h
    cases e' with
    | comparison op' left' right' =>
      obtain ⟨hop, hleft, hright⟩ : op.name = op'.name ∧ left.toJson = left'.toJson ∧
          right.toJson = right'.toJson := by
        simpa [toJson, Json.tagged] using h
      rw [Comparison.name_injective hop, ihl hleft, ihr hright]
    | connective op' => simp [toJson, Json.tagged, op.name_ne op'] at h
    | integer | boolean | reference | unary | binary => simp [toJson, Json.tagged] at h
  | connective op left right ihl ihr =>
    intro e' h
    cases e' with
    | connective op' left' right' =>
      obtain ⟨hop, hleft, hright⟩ : op.name = op'.name ∧ left.toJson = left'.toJson ∧
          right.toJson = right'.toJson := by
        simpa [toJson, Json.tagged] using h
      rw [Connective.name_injective hop, ihl hleft, ihr hright]
    | comparison op' => simp [toJson, Json.tagged, (op'.name_ne op).symm] at h
    | integer | boolean | reference | unary | binary => simp [toJson, Json.tagged] at h

theorem toJson_inj {e e' : Expr} : e.toJson = e'.toJson ↔ e = e' := toJson_injective.eq_iff

end Expr

namespace Stmt

mutual

theorem eq_of_toJson : (s s' : Stmt) → s.toJson = s'.toJson → s = s'
  | expr value, s', h => by
    cases s' with
    | expr value' => simpa [toJson, Json.tagged, Expr.toJson_inj] using h
    | declare | assign | ret | ifThen | ifElse | loop =>
      simp [toJson, Json.tagged, branchFields] at h
  | declare name value index, s', h => by
    cases s' with
    | declare name' value' index' =>
      simpa [toJson, Json.tagged, bindingFields, Expr.toJson_inj] using h
    | expr | assign | ret | ifThen | ifElse | loop =>
      simp [toJson, Json.tagged, branchFields] at h
  | assign name value index, s', h => by
    cases s' with
    | assign name' value' index' =>
      simpa [toJson, Json.tagged, bindingFields, Expr.toJson_inj] using h
    | expr | declare | ret | ifThen | ifElse | loop =>
      simp [toJson, Json.tagged, branchFields] at h
  | ret value, s', h => by
    cases s' with
    | ret value' => simpa [toJson, Json.tagged, Expr.toJson_inj] using h
    | expr | declare | assign | ifThen | ifElse | loop =>
      simp [toJson, Json.tagged, branchFields] at h
  | ifThen condition consequent, s', h => by
    cases s' with
    | ifThen condition' consequent' =>
      obtain ⟨hcondition, hconsequent⟩ :
          condition = condition' ∧ blockJson consequent = blockJson consequent' := by
        simpa [toJson, Json.tagged, branchFields, Expr.toJson_inj] using h
      rw [hcondition, eq_of_blockJson consequent consequent' hconsequent]
    | expr | declare | assign | ret | ifElse | loop =>
      simp [toJson, Json.tagged, branchFields] at h
  | ifElse condition consequent alternate, s', h => by
    cases s' with
    | ifElse condition' consequent' alternate' =>
      obtain ⟨hcondition, hconsequent, halternate⟩ : condition = condition' ∧
          blockJson consequent = blockJson consequent' ∧
          blockJson alternate = blockJson alternate' := by
        simpa [toJson, Json.tagged, branchFields, Expr.toJson_inj] using h
      rw [hcondition, eq_of_blockJson consequent consequent' hconsequent,
        eq_of_blockJson alternate alternate' halternate]
    | expr | declare | assign | ret | ifThen | loop =>
      simp [toJson, Json.tagged, branchFields] at h
  | loop condition body, s', h => by
    cases s' with
    | loop condition' body' =>
      obtain ⟨hcondition, hbody⟩ : condition = condition' ∧ blockJson body = blockJson body' := by
        simpa [toJson, Json.tagged, Expr.toJson_inj] using h
      rw [hcondition, eq_of_blockJson body body' hbody]
    | expr | declare | assign | ret | ifThen | ifElse =>
      simp [toJson, Json.tagged, branchFields] at h

theorem eq_of_blockJson : (b b' : List Stmt) → blockJson b = blockJson b' → b = b'
  | [], [], _ => rfl
  | [], _ :: _, h => nomatch h
  | _ :: _, [], h => nomatch h
  | s :: b, s' :: b', h => by
    obtain ⟨hs, hb⟩ := List.cons.inj h
    rw [eq_of_toJson s s' hs, eq_of_blockJson b b' hb]

end

end Stmt

theorem Binding.toJson_injective : Function.Injective toJson := by
  rintro ⟨name, value⟩ ⟨name', value'⟩ h
  simpa [toJson, Expr.toJson_inj] using h

namespace SymbolTable

theorem entries_ext {entries entries' : List (String × Nat)}
    (hkeys : entries.map Prod.fst = entries'.map Prod.fst) (hnodup : (entries.map Prod.fst).Nodup)
    (h : ∀ name, entries.lookup name = entries'.lookup name) : entries = entries' := by
  induction entries generalizing entries' with
  | nil => exact (List.map_eq_nil_iff.mp hkeys.symm).symm
  | cons entry entries ih =>
    obtain ⟨name, index⟩ := entry
    obtain ⟨⟨name', index'⟩, rest, rfl, rfl, hrest⟩ := List.map_eq_cons_iff.mp hkeys.symm
    obtain ⟨hfresh, hothers⟩ := List.nodup_cons.mp hnodup
    obtain rfl : index = index' := by simpa using h name'
    rw [ih hrest.symm hothers fun other => ?_]
    by_cases hother : other = name'
    · -- The head's name does not come again, in neither list.
      have hnone {l : List (String × Nat)} (hl : name' ∉ l.map Prod.fst) :
          l.lookup name' = none := by
        rw [List.lookup_eq_none_iff]
        intro p hp
        simpa using fun heq : name' = p.1 => hl (heq ▸ List.mem_map_of_mem hp)
      rw [hother, hnone hfresh, hnone (hrest ▸ hfresh)]
    · simpa [List.lookup_cons, beq_false_of_ne hother] using h other

theorem Consistent.eq_of_bindings {t t' : SymbolTable} (h : t.Consistent) (h' : t'.Consistent)
    (he : t.bindings = t'.bindings) : t = t' := by
  have hbound : t.bound = t'.bound := by rw [bound, he, ← bound]
  have hentries : t.entries = t'.entries := by
    refine entries_ext (show t.names = t'.names by rw [h.names, h'.names, hbound]) h.nodup
      fun name => ?_
    exact (h.tracks.latest name).trans (hbound ▸ (h'.tracks.latest name).symm)
  cases t
  cases t'
  simp_all

end SymbolTable

namespace Program

theorem eq_of_toJson {p q : Program} (hp : p.symbols.Consistent) (hq : q.symbols.Consistent)
    (h : p.toJson = q.toJson) : p = q := by
  simp only [toJson, SymbolTable.toJson, Json.object.injEq, Json.array.injEq, List.cons.injEq,
    Prod.mk.injEq, true_and, and_true] at h
  obtain ⟨hstatements, hbindings, -⟩ := h
  have hlist := Binding.toJson_injective.list_map hbindings
  cases p
  cases q
  rw [mk.injEq]
  exact ⟨Stmt.eq_of_blockJson _ _ hstatements, hp.eq_of_bindings hq (Array.toList_inj.mp hlist)⟩

end Program

/-- Programs whose tables were built by calls are equal if their compact dumps are the same text,
or their pretty ones. -/
theorem dump_identifies {p q : Program} {calls calls' : List SymbolTable.Call}
    (hp : p.symbols = SymbolTable.empty.after calls)
    (hq : q.symbols = SymbolTable.empty.after calls')
    (h : p.toJson.compact = q.toJson.compact ∨ p.toJson.pretty = q.toJson.pretty) : p = q := by
  have hp' : p.symbols.Consistent := hp ▸ SymbolTable.consistent_empty.after calls
  have hq' : q.symbols.Consistent := hq ▸ SymbolTable.consistent_empty.after calls'
  obtain h | h := h
  · exact Program.eq_of_toJson hp' hq' (Json.compact_injective h)
  · exact Program.eq_of_toJson hp' hq' (Json.pretty_injective h)

/-- An assignment that failed leaves no trace, and a name is told whatever its characters are. -/
theorem exists_dump_of_calls : ∃ p q : Program, ∃ calls calls' : List SymbolTable.Call,
    calls ≠ calls' ∧ p.symbols = SymbolTable.empty.after calls ∧
      q.symbols = SymbolTable.empty.after calls' ∧
      p.toJson.compact = "\x7b\"statements\":[],\"symbols\":\x7b\"bindings\":[\x7b\"name\":" ++
        "\"\\n\\\"\",\"value\":\x7b\"Integer\":-1\x7d\x7d],\"current\":\x7b\"\\n\\\"\":0\x7d\x7d\x7d" ∧
      q.toJson.compact = p.toJson.compact ∧ p = q := by
  let calls : List SymbolTable.Call := [.declare "\n\"" (.integer (-1))]
  let calls' := .assign "x" (.boolean true) 1 :: calls
  have h : (Program.mk [] (SymbolTable.empty.after calls')).toJson.compact =
      (Program.mk [] (SymbolTable.empty.after calls)).toJson.compact := by decide +kernel
  exact ⟨_, _, calls, calls', by decide, rfl, rfl, by decide +kernel, h,
    dump_identifies (show _ = SymbolTable.empty.after calls from rfl)
      (show _ = SymbolTable.empty.after calls' from rfl) (.inl h.symm)⟩

end TinyCompiler
