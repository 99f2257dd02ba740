import TinyCompiler.Proofs.TreeHeight

/-! The limit on nesting does not bound the height of the trees. Trees of the greatest height are
built for every limit: in every tier as many operators as there are levels left, and as first
operand a group of the same kind with one level less. -/
namespace TinyCompiler

namespace Grammar

namespace Tier

def mark : Tier → Token
  | disjunction => ⟨.pipePipe, "||", 1⟩
  | conjunction => ⟨.ampAmp, "&&", 1⟩
  | comparison => ⟨.equal, "==", 1⟩
  | additive => ⟨.plus, "+", 1⟩
  | multiplicative => ⟨.star, "*", 1⟩

def join : Tier → Expr → Expr → Expr
  | disjunction => .connective .or
  | conjunction => .connective .and
  | comparison => .comparison .eq
  | additive => .binary .add
  | multiplicative => .binary .mul

theorem node?_mark (t : Tier) : t.node? t.mark.kind = some t.join := by cases t <;> rfl

theorem node?_mark_of_rank_lt {t u : Tier} (h : t.rank < u.rank) : t.node? u.mark.kind = none := by
  cases t <;> cases u <;> first | rfl | (revert h; decide)

end Tier

/-- A tree of this height, from a phrase that may stand before anything but an operator of its
own tiers, and needs these levels. -/
structure Tall {l : Level} (P : Phrase l) (height levels : Nat) : Prop where
  height : ∀ binding, (P.tree binding).height = height
  needs : ∀ around, ∀ n ∈ P.needs around, n ≤ around + levels
  greedy : ∀ next, (∀ t : Tier, t.rank ≤ l.rank → t.node? next = none) → P.Greedy next
  first : ∀ next, firstKind P.tokens next ≠ .identifier
  numerals : P.numerals = []
  names : P.names = []

def lonePrimary : Phrase .primary := .yes ⟨⟨.trueWord, "true", 1⟩, rfl⟩

def lone : (l : Level) → Phrase l
  | .primary => lonePrimary
  | .unary => .bare lonePrimary
  | .tier .multiplicative => .chain (.bare lonePrimary) .nil
  | .tier .additive => .chain (lone (.tier .multiplicative)) .nil
  | .tier .comparison => .chain (lone (.tier .additive)) .nil
  | .tier .conjunction => .chain (lone (.tier .comparison)) .nil
  | .tier .disjunction => .chain (lone (.tier .conjunction)) .nil
  termination_by l => l.rank
  decreasing_by all_goals decide

def loneLinks (t : Tier) : Nat → Links t
  | 0 => .nil
  | n + 1 => .cons t.mark t.join t.node?_mark (lone t.operand) (loneLinks t n)

variable {t : Tier} {height levels : Nat}

theorem tall_lonePrimary : Tall lonePrimary 1 0 where
  height binding := rfl
  needs around n hn := by
    rw [lonePrimary, Phrase.needs, List.mem_singleton] at hn
    omega
  greedy next h := trivial
  first next := nofun
  numerals := rfl
  names := rfl

theorem Tall.bare {operand : Phrase .primary} (h : Tall operand height levels) :
    Tall (.bare operand) height levels :=
  ⟨h.height, h.needs, h.greedy, h.first, h.numerals, h.names⟩

theorem Tall.chain_nil {first : Phrase t.operand} (h : Tall first height levels) :
    Tall (.chain first .nil : Phrase (.tier t)) height levels where
  height binding := h.height binding
  needs around n hn := h.needs around n (by simpa [Phrase.needs, Links.needs] using hn)
  greedy next hnext := by
    have hrank := t.rank_operand
    refine ⟨h.greedy _ fun u hu => hnext u ?_, hnext t (Nat.le_refl _)⟩
    rw [Level.rank]
    omega
  first next := by simpa [Phrase.tokens, Links.tokens] using h.first next
  numerals := by simp [Phrase.numerals, Links.numerals, h.numerals]
  names := by simp [Phrase.names, Links.names, h.names]

theorem tall_lone : (l : Level) → Tall (lone l) 1 0
  | .primary => by
    rw [lone]
    exact tall_lonePrimary
  | .unary => by
    rw [lone]
    exact tall_lonePrimary.bare
  | .tier .multiplicative => by
    rw [lone]
    exact tall_lonePrimary.bare.chain_nil
  | .tier .additive => by
    rw [lone]
    exact (tall_lone (.tier .multiplicative)).chain_nil
  | .tier .comparison => by
    rw [lone]
    exact (tall_lone (.tier .additive)).chain_nil
  | .tier .conjunction => by
    rw [lone]
    exact (tall_lone (.tier .comparison)).chain_nil
  | .tier .disjunction => by
    rw [lone]
    exact (tall_lone (.tier .conjunction)).chain_nil
  termination_by l => l.rank
  decreasing_by all_goals decide

section Links

variable (t) (n : Nat) (next : Kind)

theorem height_fold_loneLinks (binding : String → Nat) (left : Expr) :
    ((loneLinks t n).fold binding left).height = left.height + n := by
  induction n generalizing left with
  | zero => rfl
  | succ n ih =>
    have hleft := left.one_le_height
    rw [loneLinks, Links.fold, ih, Tier.height_node t.node?_mark, (tall_lone _).height]
    omega

theorem needs_loneLinks (around : Nat) : ∀ m ∈ (loneLinks t n).needs around, m ≤ around + n := by
  induction n generalizing around with
  | zero => simp [loneLinks, Links.needs]
  | succ n ih =>
    refine List.forall_mem_append.mpr ⟨fun m hm => ?_, fun m hm => ?_⟩
    · have hlone := (tall_lone t.operand).needs (around + 1) m hm
      omega
    · have hrest := ih (around + 1) m hm
      omega

/-- Behind an operand of the tier stands an operator of the tier, or what follows the chain. -/
theorem node?_firstKind_loneLinks {u : Tier} (hu : u.rank ≤ t.operand.rank)
    (hnext : u.node? next = none) : u.node? (firstKind (loneLinks t n).tokens next) = none := by
  have hrank := t.rank_operand
  cases n with
  | zero => exact hnext
  | succ n => exact Tier.node?_mark_of_rank_lt (by omega)

theorem greedy_loneLinks (hnext : ∀ u : Tier, u.rank ≤ t.rank → u.node? next = none) :
    (loneLinks t n).Greedy next := by
  have hrank := t.rank_operand
  induction n with
  | zero => exact hnext t (Nat.le_refl _)
  | succ n ih =>
    refine ⟨(tall_lone t.operand).greedy _ fun u hu => ?_, ih⟩
    exact node?_firstKind_loneLinks t n next hu (hnext u (by omega))

theorem numerals_loneLinks : (loneLinks t n).numerals = [] := by
  induction n with
  | zero => rfl
  | succ n ih => rw [loneLinks, Links.numerals, (tall_lone _).numerals, ih, List.append_nil]

theorem names_loneLinks : (loneLinks t n).names = [] := by
  induction n with
  | zero => rfl
  | succ n ih => rw [loneLinks, Links.names, (tall_lone _).names, ih, List.append_nil]

end Links

/-- As many operators as there are levels, and none of them costs the first operand any. -/
theorem Tall.chain {first : Phrase t.operand} (h : Tall first height levels) :
    Tall (.chain first (loneLinks t levels) : Phrase (.tier t)) (height + levels) levels where
  height binding := by rw [Phrase.tree, height_fold_loneLinks, h.height]
  needs around := List.forall_mem_append.mpr ⟨h.needs around, needs_loneLinks t levels around⟩
  greedy next hnext := by
    have hrank := t.rank_operand
    refine ⟨h.greedy _ fun u hu => ?_, greedy_loneLinks t levels next hnext⟩
    exact node?_firstKind_loneLinks t levels next hu (hnext u (by rw [Level.rank]; omega))
  first next := by
    rw [Phrase.tokens, firstKind_append]
    exact h.first _
  numerals := by rw [Phrase.numerals, h.numerals, numerals_loneLinks, List.append_nil]
  names := by rw [Phrase.names, h.names, names_loneLinks, List.append_nil]

theorem Tall.group {inner : Expression} (h : Tall inner height levels) :
    Tall (.group ⟨⟨.openParen, "(", 1⟩, rfl⟩ inner ⟨⟨.closeParen, ")", 1⟩, rfl⟩) height
      (levels + 1) where
  height binding := h.height binding
  needs around := by
    refine List.forall_mem_cons.mpr ⟨Nat.le_add_right _ _, fun n hn => ?_⟩
    have hinner := h.needs (around + 1) n hn
    omega
  greedy next hnext := h.greedy _ fun u _ => by cases u <;> rfl
  first next := nofun
  numerals := h.numerals
  names := h.names

theorem Tall.not {operand : Phrase .unary} (h : Tall operand height levels) :
    Tall (.sign .not ⟨⟨.bang, "!", 1⟩, rfl⟩ operand) (height + 1) (levels + 1) where
  height binding := by rw [Phrase.tree, Expr.height, h.height]
  needs around n hn := by
    have hoperand := h.needs (around + 1) n hn
    omega
  greedy next hnext := h.greedy next hnext
  first next := nofun
  numerals := h.numerals
  names := h.names

def fill (levels : Nat) (first : Phrase .unary) : Expression :=
  .chain (.chain (.chain (.chain (.chain first (loneLinks .multiplicative levels))
    (loneLinks .additive levels)) (loneLinks .comparison levels)) (loneLinks .conjunction levels))
    (loneLinks .disjunction levels)

theorem Tall.fill {first : Phrase .unary} (h : Tall first height levels) :
    Tall (fill levels first) (height + 5 * levels) levels := by
  have hfill := (((((h.chain (t := .multiplicative)).chain (t := .additive)).chain
    (t := .comparison)).chain (t := .conjunction)).chain (t := .disjunction))
  have hheight : height + 5 * levels = height + levels + levels + levels + levels + levels := by
    omega
  rw [hheight]
  exact hfill

/-- A sign is the taller one at the last level only. -/
def tallUnary : Nat → Phrase .unary
  | 0 => .bare lonePrimary
  | 1 => .sign .not ⟨⟨.bang, "!", 1⟩, rfl⟩ (.bare lonePrimary)
  | levels + 2 =>
    .bare (.group ⟨⟨.openParen, "(", 1⟩, rfl⟩ (fill (levels + 1) (tallUnary (levels + 1)))
      ⟨⟨.closeParen, ")", 1⟩, rfl⟩)

theorem tall_tallUnary : (levels : Nat) → Tall (tallUnary levels) (tallest levels) levels
  | 0 => tall_lonePrimary.bare
  | 1 => tall_lonePrimary.bare.not
  | levels + 2 => by
    have hinner := (tall_tallUnary (levels + 1)).fill.group.bare
    have hmax : max 1 (5 * (levels + 1)) = 5 * (levels + 1) := by omega
    rw [tallest, hmax]
    exact hinner

end Grammar

open Grammar

theorem Grammar.Tall.fits {P : Expression} {height levels : Nat} (h : Tall P height levels) :
    Text.Fits (.cons (.expr P) none .nil) (.start P.tokens (levels + 1)) [] [] := by
  obtain ⟨t, ts, ht, -⟩ := P.exists_starter
  have hfirst := h.first .endOfInput
  rw [ht, firstKind_cons] at hfirst
  have hvalue : P.Fits ((Parser.start P.tokens (levels + 1)).inside P.tokens) [] := by
    refine ⟨(List.append_nil _).symm, h.greedy _ fun u _ => node?_endOfInput u, ?_, ?_, ?_⟩
    · simp [h.numerals]
    · simp [h.names]
    · intro n hn
      have hlevels := h.needs 1 n hn
      rwa [Nat.add_comm] at hlevels
  have hbinding : ¬StartsBinding (P.tokens.map Token.kind ++ [.endOfInput]) := by
    rw [ht]
    cases ts with
    | nil => exact fun hs => hfirst (Rule.startsBinding_cons_cons.mp hs).1
    | cons u us => exact fun hs => hfirst (Rule.startsBinding_cons_cons.mp hs).1
  have hstatement : (Sentence.expr P).Fits (.start P.tokens (levels + 1)) [] [] :=
    (Sentence.fits_expr SymbolTable.tracks_empty).mpr ⟨hvalue, hbinding⟩
  exact Text.fits_cons.mpr ⟨⟨hstatement, nofun⟩, Text.fits_nil.mpr rfl⟩

/-- The bound is reached. -/
theorem exists_parse_heightBound (m : Nat) : ∃ tokens e,
    parse tokens (m + 1) = .ok ⟨[.expr e], .empty⟩ ∧ e.height = heightBound (m + 1) := by
  have htall := (tall_tallUnary m).fill
  refine ⟨_, _, parse_of_fits htall.fits, ?_⟩
  rw [htall.height, heightBound_succ]
  rfl

theorem height_of_start_expression {tokens : List Token} {limit : Nat} {e : Expr} {q : Parser}
    (h : (Parser.start tokens limit).expression = (.ok e, q)) :
    e.height ≤ heightBound limit ∧
      ∃ P : Expression, P.Fits ((Parser.start tokens limit).inside tokens) q.rest ∧
        e = P.tree (Parser.start tokens limit).binding ∧
          (e.height ≤ limit ↔ ∀ n ∈ P.loads 0, n ≤ limit) := by
  obtain ⟨P, rest, hP, rfl, rfl⟩ :=
    (Rule.expression_reads _ _ e q (Nat.lt_succ_self _)).mp h
  have hroom : ∀ n ∈ P.needs (0 + 1), n ≤ limit := hP.room
  exact ⟨Phrase.height_le_bound _ hroom, P, hP, rfl, P.height_le_iff _ 0 limit⟩

theorem height_of_parse {tokens : List Token} {limit : Nat} {program : Program}
    (h : parse tokens limit = .ok program) :
    (∀ e ∈ program.expressions, e.height ≤ heightBound limit) ∧
      ∃ (T : Text) (rest : List Token), T.Fits (.start tokens limit) [] rest ∧
        program.statements = T.trees [] ∧
          ((∀ e ∈ program.expressions, e.height ≤ limit) ↔ ∀ n ∈ T.loads, n ≤ limit) := by
  have hvalues := forall_expressions_of_parse h
  obtain ⟨T, rest, hT, -, rfl⟩ := exists_fits_of_parse h
  refine ⟨?_, T, rest, hT, rfl, ?_⟩
  · rw [hvalues fun e => e.height ≤ heightBound limit]
    exact Text.heights_le_bound T [] 0 hT.room
  · rw [hvalues fun e => e.height ≤ limit]
    exact Text.heights_le_iff limit T []

/-- The limit lets trees through up to the bound, and a tree keeps to the limit exactly if every
load of its derivation does. Every tree does only under a limit of one. -/
theorem height_under_limit (limit : Nat) :
    (∀ tokens program, parse tokens limit = .ok program →
      (∀ e ∈ program.expressions, e.height ≤ heightBound limit) ∧
        ∃ (T : Text) (rest : List Token), T.Fits (.start tokens limit) [] rest ∧
          program.statements = T.trees [] ∧
            ((∀ e ∈ program.expressions, e.height ≤ limit) ↔ ∀ n ∈ T.loads, n ≤ limit)) ∧
    (∀ tokens e q, (Parser.start tokens limit).expression = (.ok e, q) →
      e.height ≤ heightBound limit ∧
        ∃ P : Expression, P.Fits ((Parser.start tokens limit).inside tokens) q.rest ∧
          e = P.tree (Parser.start tokens limit).binding ∧
            (e.height ≤ limit ↔ ∀ n ∈ P.loads 0, n ≤ limit)) ∧
    (limit ≠ 0 → ∃ tokens program, parse tokens limit = .ok program ∧
      ∃ e ∈ program.expressions, e.height = heightBound limit) ∧
    ((∀ tokens program, parse tokens limit = .ok program →
      ∀ e ∈ program.expressions, e.height ≤ limit) ↔ limit ≤ 1) := by
  have hreached : limit ≠ 0 → ∃ tokens program, parse tokens limit = .ok program ∧
      ∃ e ∈ program.expressions, e.height = heightBound limit := by
    intro hne
    obtain ⟨m, rfl⟩ := Nat.exists_eq_succ_of_ne_zero hne
    obtain ⟨tokens, e, hparse, he⟩ := exists_parse_heightBound m
    exact ⟨tokens, _, hparse, e, by simp [Program.expressions, Stmt.expressionsAll,
      Stmt.expressions], he⟩
  refine ⟨fun tokens program h => height_of_parse h,
    fun tokens e q h => height_of_start_expression h, hreached, fun hall => ?_, fun hle => ?_⟩
  · by_contra hlt
    obtain ⟨tokens, program, hparse, e, he, hheight⟩ := hreached (by omega)
    have hbound := hall tokens program hparse e he
    rw [hheight] at hbound
    exact hlt ((heightBound_le_iff limit).mp hbound)
  · intro tokens program h e he
    exact Nat.le_trans ((height_of_parse h).1 e he) ((heightBound_le_iff limit).mpr hle)

/-- For the tokens of `-1 + 2`. -/
theorem exists_height_gt_limit : ∃ program,
    parse [⟨.minus, "-", 1⟩, ⟨.integer, "1", 1⟩, ⟨.plus, "+", 1⟩, ⟨.integer, "2", 1⟩] 2 =
      .ok program ∧ ¬∀ e ∈ program.expressions, e.height ≤ 2 :=
  ⟨⟨[.expr (.binary .add (.unary .neg (.integer 1)) (.integer 2))], .empty⟩, by decide +kernel,
    by decide⟩

end TinyCompiler
