import TinyCompiler.Proofs.GrammarExact
import TinyCompiler.Proofs.Layout
import TinyCompiler.Proofs.Printing

/-! The trees of scanned tokens. Their names are identifiers and their integers have no sign, so
that every one of them can be printed. -/
namespace TinyCompiler

open Grammar

/-- The lexeme spells the kind, unless the token is an end marker. -/
def Token.Scanned (t : Token) : Prop :=
  t.kind ≠ .endOfInput → Segment.Spells (Utf8.encode t.lexeme) t.kind

theorem scanned_of_tokenize {text : List UInt8} {tokens : List Token}
    (h : tokenize text = .ok tokens) : ∀ t ∈ tokens, t.Scanned := by
  obtain ⟨ts, line, rfl, hts⟩ := exists_spelled_of_tokenize h
  intro t ht hk
  obtain ht | ht := List.mem_append.mp ht
  · exact hts t ht
  · obtain rfl := List.mem_singleton.mp ht
    exact absurd rfl hk

theorem Token.Scanned.spells {k : Kind} {t : TokenOf k} (h : t.1.Scanned)
    (hk : k ≠ .endOfInput) : Segment.Spells (Utf8.encode t.1.lexeme) k := by
  have hspells := h (by rwa [t.2])
  rwa [t.2] at hspells

/-- A kind that no keyword and no operator has is spelled by a numeral or by a name. -/
theorem numeral_or_name_of_spells {w : List UInt8} {kind : Kind} (h : Segment.Spells w kind)
    (hkind : ∀ entry ∈ Kind.keywords ++ Kind.operators, entry.2 ≠ kind) :
    Segment.IsNumeral w ∧ kind = .integer ∨
      Segment.IsWord w ∧ ¬Segment.IsKeyword w ∧ kind = .identifier := by
  obtain hnumeral | hname | ⟨entry, hentry, -, hk⟩ | ⟨entry, hentry, -, hk⟩ :=
    Segment.spells_iff.mp h
  · exact .inl hnumeral
  · exact .inr hname
  · exact absurd hk (hkind entry (List.mem_append_left _ hentry))
  · exact absurd hk (hkind entry (List.mem_append_right _ hentry))

theorem isName_of_spells {name : String} (h : Segment.Spells (Utf8.encode name) .identifier) :
    IsName name := by
  obtain ⟨-, hk⟩ | ⟨hword, hk, -⟩ := numeral_or_name_of_spells h (by decide)
  · cases hk
  · exact ⟨hword, hk⟩

theorem value_nonneg_of_spells {s : String} (h : Segment.Spells (Utf8.encode s) .integer) :
    0 ≤ Decimal.value s := by
  obtain ⟨hnumeral, -⟩ | ⟨-, -, hk⟩ := numeral_or_name_of_spells h (by decide)
  · have hminus : ∀ ds, s.toList ≠ '-' :: ds := by
      intro ds hs
      have hmem : '-'.toUInt8 ∈ Utf8.encode s := by
        rw [Utf8.encode, hs, List.flatMap_cons]
        exact List.mem_append_left _ (by decide)
      exact absurd (hnumeral.2 _ hmem) (by decide)
    rw [Decimal.value]
    generalize s.toList = cs at hminus
    fun_cases Decimal.unsign cs with
    | case1 ds => exact absurd rfl (hminus ds)
    | case2 | case3 => exact Int.natCast_nonneg _
  · cases hk

namespace Grammar

theorem Tier.printable_node {k : Tier} {kind : Kind} {node : Expr → Expr → Expr}
    (h : k.node? kind = some node) (left right : Expr) :
    (node left right).Printable ↔ left.Printable ∧ right.Printable := by
  unfold Tier.node? at h
  split at h <;> cases h <;> exact Iff.rfl

mutual

theorem Phrase.printable_tree {binding : String → Nat} : {l : Level} → (P : Phrase l) →
    (∀ t ∈ P.tokens, t.Scanned) → (∀ s ∈ P.numerals, Decimal.IsWord s) →
      (P.tree binding).Printable
  | _, .numeral t, h, hw => by
    obtain ⟨-, hlow, hhigh⟩ := hw t.1.lexeme List.mem_cons_self
    rw [Phrase.tree, Expr.Printable, Int64.toInt_ofInt_of_le hlow hhigh]
    exact value_nonneg_of_spells ((h t.1 List.mem_cons_self).spells (by decide))
  | _, .yes _, _, _ | _, .no _, _, _ => trivial
  | _, .name t, h, _ => isName_of_spells ((h t.1 List.mem_cons_self).spells (by decide))
  | _, .group _ inner _, h, hw =>
    Phrase.printable_tree inner (fun t ht => h t (by simp [Phrase.tokens, ht])) hw
  | _, .bare operand, h, hw => Phrase.printable_tree operand h hw
  | _, .sign _ _ operand, h, hw =>
    Phrase.printable_tree operand (List.forall_mem_cons.mp h).2 hw
  | _, .plus _ operand, h, hw =>
    Phrase.printable_tree operand (List.forall_mem_cons.mp h).2 hw
  | _, .chain first links, h, hw => by
    have hboth := List.forall_mem_append.mp h
    have hwords := List.forall_mem_append.mp hw
    exact Links.printable_fold links hboth.2 hwords.2 _
      (Phrase.printable_tree first hboth.1 hwords.1)

theorem Links.printable_fold {binding : String → Nat} : {k : Tier} → (L : Links k) →
    (∀ t ∈ L.tokens, t.Scanned) → (∀ s ∈ L.numerals, Decimal.IsWord s) →
      ∀ left : Expr, left.Printable → (L.fold binding left).Printable
  | _, .nil, _, _, _, hl => hl
  | _, .cons _ _ hnode right rest, h, hw, left, hl => by
    have hboth := List.forall_mem_append.mp (List.forall_mem_cons.mp h).2
    have hwords := List.forall_mem_append.mp hw
    have hright : (right.tree binding).Printable :=
      Phrase.printable_tree right hboth.1 hwords.1
    exact Links.printable_fold rest hboth.2 hwords.2 _
      ((Tier.printable_node hnode left _).mpr ⟨hl, hright⟩)

end

mutual

theorem Sentence.printable_tree {scope : List String} : (D : Sentence) →
    (∀ t ∈ D.tokens, t.Scanned) → (∀ s ∈ D.numerals, Decimal.IsWord s) →
      (D.tree scope).Printable
  | .expr value, h, hw => value.printable_tree h hw
  | .declare target _ value, h, hw | .assign target _ value, h, hw => by
    obtain ⟨htarget, hmore⟩ := List.forall_mem_cons.mp h
    exact ⟨isName_of_spells (htarget.spells (by decide)),
      value.printable_tree (List.forall_mem_cons.mp hmore).2 hw⟩
  | .ret _ value, h, hw => value.printable_tree (List.forall_mem_cons.mp h).2 hw
  | .ifThen _ condition consequent, h, hw => by
    obtain ⟨hc, hb⟩ := List.forall_mem_append.mp (List.forall_mem_cons.mp h).2
    obtain ⟨hcw, hbw⟩ := List.forall_mem_append.mp hw
    exact ⟨condition.printable_tree hc hcw, Block.printable_trees consequent hb hbw⟩
  | .ifElse _ condition consequent _ alternate, h, hw => by
    obtain ⟨hc, hmore⟩ := List.forall_mem_append.mp (List.forall_mem_cons.mp h).2
    obtain ⟨hb, ha⟩ := List.forall_mem_append.mp hmore
    obtain ⟨hcw, hmore⟩ := List.forall_mem_append.mp hw
    obtain ⟨hbw, haw⟩ := List.forall_mem_append.mp hmore
    exact ⟨condition.printable_tree hc hcw, Block.printable_trees consequent hb hbw,
      Block.printable_trees alternate (List.forall_mem_cons.mp ha).2 haw⟩
  | .loop _ condition body, h, hw => by
    obtain ⟨hc, hb⟩ := List.forall_mem_append.mp (List.forall_mem_cons.mp h).2
    obtain ⟨hcw, hbw⟩ := List.forall_mem_append.mp hw
    exact ⟨condition.printable_tree hc hcw, Block.printable_trees body hb hbw⟩

theorem Block.printable_trees {scope : List String} : (B : Block) →
    (∀ t ∈ B.tokens, t.Scanned) → (∀ s ∈ B.numerals, Decimal.IsWord s) →
      Stmt.PrintableAll (B.trees scope)
  | .braces _ body _, h, hw =>
    Text.printable_trees body (fun t ht => h t (by simp [Block.tokens, ht])) hw

theorem Text.printable_trees {scope : List String} : (T : Text) →
    (∀ t ∈ T.tokens, t.Scanned) → (∀ s ∈ T.numerals, Decimal.IsWord s) →
      Stmt.PrintableAll (T.trees scope)
  | .nil, _, _ => trivial
  | .cons s _ rest, h, hw => by
    obtain ⟨hs, hmore⟩ := List.forall_mem_append.mp h
    obtain ⟨hsw, hrw⟩ := List.forall_mem_append.mp hw
    exact ⟨Sentence.printable_tree s hs hsw,
      Text.printable_trees rest (List.forall_mem_append.mp hmore).2 hrw⟩

end

end Grammar

theorem printable_of_parse {text : List UInt8} {tokens : List Token} {limit : Nat}
    {program : Program} (htokens : tokenize text = .ok tokens)
    (h : parse tokens limit = .ok program) : Stmt.PrintableAll program.statements := by
  obtain ⟨T, rest, hT, -, rfl⟩ := exists_fits_of_parse h
  have htext : tokens = T.tokens ++ rest := hT.text
  refine T.printable_trees (fun t ht => scanned_of_tokenize htokens t ?_) hT.words
  rw [htext]
  exact List.mem_append_left rest ht

end TinyCompiler
