import TinyCompiler.Proofs.Printing
import TinyCompiler.Proofs.SpacedTokens

/-! Derivations of printed statements. An expression has a derivation at the level of its outermost
operator and so at every looser one; in parentheses it has one at every level. A chain is built
from its left operand, which is open: the operator that comes next joins it. -/
namespace TinyCompiler

namespace Grammar

/-- No operator of the tiers before this number is of the kind. -/
def Free (looseness : Nat) (k : Kind) : Prop :=
  ∀ t : Tier, (Level.tier t).looseness < looseness → t.node? k = none

theorem Free.mono {m n : Nat} {k : Kind} (h : Free n k) (hmn : m ≤ n) : Free m k :=
  fun t ht => h t (Nat.lt_of_lt_of_le ht hmn)

theorem Tier.free_of_node? {t : Tier} {k : Kind} {node : Expr → Expr → Expr}
    (h : t.node? k = some node) : Free (Level.tier t).looseness k := by
  intro t' ht
  unfold Tier.node? at h
  split at h <;> cases h <;> cases t' <;> first | rfl | exact absurd ht (by decide)

end Grammar

theorem Token.Written.fixed {w : String} {kind : Kind}
    (h : (w.toList, kind) ∈ Kind.operators ++ Kind.keywords)
    (hw : Utf8.encode w = Segment.ascii w.toList) : (detached kind w).Written := by
  refine ⟨rfl, ?_⟩
  show Segment.Spells (Utf8.encode w) kind
  rw [hw]
  obtain h | h := List.mem_append.mp h
  · exact .operator h
  · exact .keyword h

theorem Utf8.exists_digit {c : Char} (h : c.isDigit = true) :
    ∃ b, String.utf8EncodeChar c = [b] ∧ Segment.isDigit b = true := by
  have hc : 48 ≤ c.toNat ∧ c.toNat ≤ 57 := by simpa [Char.isDigit, UInt32.le_iff_toNat_le] using h
  have hascii : c.toNat ≤ 127 := by omega
  refine ⟨UInt8.ofNat c.toNat, by simp [String.utf8EncodeChar, hascii], ?_⟩
  rw [Segment.isDigit_iff, UInt8.toNat_ofNat', Nat.mod_eq_of_lt (by omega)]
  exact hc

theorem Decimal.isNumeral_encode_ofInt (n : Nat) :
    Segment.IsNumeral (Utf8.encode (ofInt n)) := by
  rw [Utf8.encode, toList_ofInt_natCast]
  have hdigits : ∀ c ∈ Nat.toDigits 10 n, c.isDigit = true := fun c hc =>
    Nat.isDigit_of_mem_toDigits (by decide) (by decide) hc
  constructor
  · obtain ⟨c, cs, hc⟩ := List.exists_cons_of_ne_nil (Nat.toDigits_ne_nil (b := 10) (n := n))
    obtain ⟨b, hb, -⟩ := Utf8.exists_digit (hdigits c (by simp [hc]))
    simp [hc, hb]
  · intro b hb
    obtain ⟨c, hc, hbc⟩ := List.mem_flatMap.mp hb
    obtain ⟨d, hd, hdigit⟩ := Utf8.exists_digit (hdigits c hc)
    obtain rfl : b = d := by simpa [hd] using hbc
    exact hdigit

theorem Decimal.isWord_ofInt (value : Int64) :
    IsWord (ofInt value.toInt) ∧ Decimal.value (ofInt value.toInt) = value.toInt := by
  obtain ⟨hnumeral, hvalue⟩ := signed?_eq_some.mp (signed?_ofInt value.toInt)
  refine ⟨⟨hnumeral, ?_, ?_⟩, hvalue⟩
  · rw [hvalue]
    exact value.le_toInt
  · rw [hvalue]
    exact value.toInt_lt

def BinaryOp.kind : BinaryOp → Kind
  | add => .plus
  | sub => .minus
  | or => .pipe
  | xor => .caret
  | mul => .star
  | div => .slash
  | rem => .percent
  | shl => .shiftLeft
  | shr => .shiftRight
  | and => .amp
  | andNot => .ampCaret

def Comparison.kind : Comparison → Kind
  | eq => .equal
  | ne => .notEqual
  | lt => .less
  | gt => .greater
  | le => .lessEqual
  | ge => .greaterEqual

theorem UnaryOp.written (op : UnaryOp) :
    (Token.detached (Grammar.signKind op) op.symbol).Written := by
  cases op <;> exact .fixed (by decide) (by decide)

theorem BinaryOp.written (op : BinaryOp) : (Token.detached op.kind op.symbol).Written := by
  cases op <;> exact .fixed (by decide) (by decide)

theorem Comparison.written (op : Comparison) : (Token.detached op.kind op.symbol).Written := by
  cases op <;> exact .fixed (by decide) (by decide)

theorem Connective.written (op : Connective) : (Token.detached op.kind op.symbol).Written := by
  cases op <;> exact .fixed (by decide) (by decide)

theorem BinaryOp.node?_kind (op : BinaryOp) : op.tier.node? op.kind = some (.binary op) := by
  cases op <;> rfl

theorem Comparison.node?_kind (op : Comparison) :
    Grammar.Tier.comparison.node? op.kind = some (.comparison op) := by cases op <;> rfl

theorem Connective.node?_kind (op : Connective) :
    op.tier.node? op.kind = some (.connective op) := by cases op <;> rfl

namespace Grammar

/-- Greedy, but for an operator behind the end. -/
def Links.Open : {t : Tier} → Links t → Kind → Prop
  | _, .nil, _ => True
  | _, .cons _ _ _ right rest, next => right.Greedy (firstKind rest.tokens next) ∧ rest.Open next

theorem Links.greedy_iff {next : Kind} : {t : Tier} → (L : Links t) →
    (L.Greedy next ↔ L.Open next ∧ t.node? next = none)
  | _, .nil => by simp [Links.Greedy, Links.Open]
  | _, .cons _ _ _ _ rest => by simp [Links.Greedy, Links.Open, rest.greedy_iff, and_assoc]

def Links.snoc {t : Tier} (L : Links t) (op : Token) (node : Expr → Expr → Expr)
    (h : t.node? op.kind = some node) (right : Phrase t.operand) : Links t :=
  match L with
  | .nil => .cons op node h right .nil
  | .cons op' node' h' right' rest => .cons op' node' h' right' (rest.snoc op node h right)

section Snoc

variable {t : Tier} {op : Token} {node : Expr → Expr → Expr} {h : t.node? op.kind = some node}
variable {right : Phrase t.operand}

theorem Links.tokens_snoc : (L : Links t) →
    (L.snoc op node h right).tokens = L.tokens ++ op :: right.tokens
  | .nil => by simp [Links.snoc, Links.tokens]
  | .cons _ _ _ _ rest => by simp [Links.snoc, Links.tokens, rest.tokens_snoc]

theorem Links.numerals_snoc : (L : Links t) →
    (L.snoc op node h right).numerals = L.numerals ++ right.numerals
  | .nil => by simp [Links.snoc, Links.numerals]
  | .cons _ _ _ _ rest => by simp [Links.snoc, Links.numerals, rest.numerals_snoc]

theorem Links.names_snoc : (L : Links t) →
    (L.snoc op node h right).names = L.names ++ right.names
  | .nil => by simp [Links.snoc, Links.names]
  | .cons _ _ _ _ rest => by simp [Links.snoc, Links.names, rest.names_snoc]

theorem Links.fold_snoc {binding : String → Nat} : (L : Links t) → (left : Expr) →
    (L.snoc op node h right).fold binding left =
      node (L.fold binding left) (right.tree binding)
  | .nil, _ => rfl
  | .cons _ _ _ _ rest, _ => rest.fold_snoc _

theorem Links.open_snoc {next : Kind} : (L : Links t) →
    ((L.snoc op node h right).Open next ↔ L.Open op.kind ∧ right.Greedy next)
  | .nil => by simp [Links.snoc, Links.Open, Links.tokens]
  | .cons _ _ _ _ rest => by
    rw [Links.snoc, Links.Open, Links.Open, rest.open_snoc, rest.tokens_snoc, firstKind_append,
      firstKind_cons, and_assoc]

end Snoc

def Phrase.Open : {l : Level} → Phrase l → Kind → Prop
  | _, .chain first links, next => first.Greedy (firstKind links.tokens next) ∧ links.Open next
  | _, P, next => P.Greedy next

theorem Phrase.Open.greedy {l : Level} {P : Phrase l} {next : Kind} (h : P.Open next)
    (hnext : Free (l.looseness + 1) next) : P.Greedy next := by
  cases P with
  | chain first links =>
    exact ⟨h.1, links.greedy_iff.mpr ⟨h.2, hnext _ (Nat.lt_succ_self _)⟩⟩
  | numeral | yes | no | name | group | bare | sign | plus => exact h

def word (k : Kind) (w : String) : TokenOf k := ⟨.detached k w, rfl⟩

/-- The phrase is spelled by the words, and makes the expression when each name stands for the
latest index that it has in the scope. An operator of its own tier or a looser one may follow. -/
structure Phrase.Prints {l : Level} (P : Phrase l) (scope : List String) (e : Expr)
    (ws : List String) : Prop where
  words : P.tokens.map Token.lexeme = ws
  written : ∀ t ∈ P.tokens, t.Written
  tree : P.tree (latest scope) = e
  pending : ∀ next, Free l.looseness next → P.Open next
  numerals : ∀ s ∈ P.numerals, Decimal.IsWord s
  names : ∀ x ∈ P.names, x ∈ scope

def Level.Derives (l : Level) (scope : List String) (e : Expr) (ws : List String) : Prop :=
  ∃ P : Phrase l, P.Prints scope e ws

namespace Level

theorem eq_of_looseness : {l l' : Level} → l.looseness = l'.looseness → l = l'
  | .tier t, .tier t', h => by cases t <;> cases t' <;> first | rfl | cases h
  | .tier t, .unary, h | .tier t, .primary, h => by cases t <;> cases h
  | .unary, .tier t, h | .primary, .tier t, h => by cases t <;> cases h
  | .unary, .unary, _ | .primary, .primary, _ => rfl
  | .unary, .primary, h | .primary, .unary, h => by cases h

end Level

theorem Phrase.Prints.greedy {l : Level} {P : Phrase l} {scope ws : List String} {e : Expr}
    (h : P.Prints scope e ws) {next : Kind} (hnext : Free (l.looseness + 1) next) :
    P.Greedy next :=
  (h.pending next (hnext.mono (Nat.le_succ _))).greedy hnext

namespace Level

variable {scope ws vs : List String} {e left right : Expr} {t : Tier}

theorem Derives.bare (h : primary.Derives scope e ws) : unary.Derives scope e ws := by
  obtain ⟨P, hP⟩ := h
  have hgreedy (next : Kind) : P.Greedy next := hP.greedy fun t ht => by
    cases t <;> exact absurd ht (by decide)
  exact ⟨.bare P, hP.words, hP.written, hP.tree, fun next _ => hgreedy next, hP.numerals, hP.names⟩

theorem Derives.operand (h : t.operand.Derives scope e ws) : (tier t).Derives scope e ws := by
  obtain ⟨P, hP⟩ := h
  refine ⟨.chain P .nil, ?_, ?_, hP.tree, fun next hnext => ⟨?_, trivial⟩, ?_, ?_⟩
  · simpa [Phrase.tokens, Links.tokens] using hP.words
  · simpa [Phrase.tokens, Links.tokens] using hP.written
  · rw [← t.looseness_operand] at hnext
    exact hP.greedy hnext
  · simpa [Phrase.numerals, Links.numerals] using hP.numerals
  · simpa [Phrase.names, Links.names] using hP.names

/-- What is derived at a level is derived at every looser one. -/
theorem Derives.looser {l : Level} (h : l.Derives scope e ws) :
    (l' : Level) → l.looseness ≤ l'.looseness → l'.Derives scope e ws
  | primary, hl => by
    obtain rfl : l = primary := eq_of_looseness (Nat.le_zero.mp hl)
    exact h
  | unary, hl => by
    obtain hl | hl := Nat.lt_or_eq_of_le hl
    · obtain rfl : l = primary := eq_of_looseness (Nat.lt_one_iff.mp hl)
      exact h.bare
    · obtain rfl : l = unary := eq_of_looseness hl
      exact h
  | tier t, hl => by
    obtain hl | hl := Nat.lt_or_eq_of_le hl
    · rw [← t.looseness_operand] at hl
      exact (Derives.looser h t.operand (Nat.lt_succ_iff.mp hl)).operand
    · obtain rfl : l = tier t := eq_of_looseness hl
      exact h
termination_by l' => l'.looseness
decreasing_by
  rw [← t.looseness_operand]
  exact Nat.lt_succ_self _

/-- A chain takes one more operator of its tier. -/
theorem Derives.join {op : Token} {node : Expr → Expr → Expr} (hop : t.node? op.kind = some node)
    (hw : op.Written) (hl : (tier t).Derives scope left ws)
    (hr : t.operand.Derives scope right vs) :
    (tier t).Derives scope (node left right) (ws ++ op.lexeme :: vs) := by
  obtain ⟨P, hP⟩ := hl
  obtain ⟨Q, hQ⟩ := hr
  cases P with
  | chain first links =>
    obtain ⟨hfirst, hlinks⟩ := List.forall_mem_append.mp hP.written
    obtain ⟨hfirst', hlinks'⟩ := List.forall_mem_append.mp hP.numerals
    obtain ⟨hfirst'', hlinks''⟩ := List.forall_mem_append.mp hP.names
    refine ⟨.chain first (links.snoc op node hop Q), ?_, ?_, ?_, fun next hnext => ?_, ?_, ?_⟩
    · rw [← hP.words, ← hQ.words]
      simp [Phrase.tokens, Links.tokens_snoc]
    · simp only [Phrase.tokens, Links.tokens_snoc, List.forall_mem_append, List.forall_mem_cons]
      exact ⟨hfirst, hlinks, hw, hQ.written⟩
    · rw [← hP.tree, ← hQ.tree]
      exact links.fold_snoc _
    · obtain ⟨hfirst, hlinks⟩ := hP.pending op.kind (Tier.free_of_node? hop)
      rw [← t.looseness_operand] at hnext
      refine ⟨?_, links.open_snoc.mpr ⟨hlinks, hQ.greedy hnext⟩⟩
      rwa [links.tokens_snoc, firstKind_append]
    · simp only [Phrase.numerals, Links.numerals_snoc, List.forall_mem_append]
      exact ⟨hfirst', hlinks', hQ.numerals⟩
    · simp only [Phrase.names, Links.names_snoc, List.forall_mem_append]
      exact ⟨hfirst'', hlinks'', hQ.names⟩

theorem Derives.sign (op : UnaryOp) (h : unary.Derives scope e ws) :
    unary.Derives scope (.unary op e) (op.symbol :: ws) := by
  obtain ⟨P, hP⟩ := h
  refine ⟨.sign op (word _ op.symbol) P, congrArg _ hP.words,
    List.forall_mem_cons.mpr ⟨op.written, hP.written⟩, congrArg _ hP.tree,
    fun next _ => hP.greedy fun t ht => ?_, hP.numerals, hP.names⟩
  cases t <;> exact absurd ht (by decide)

theorem Derives.group (h : (tier .disjunction).Derives scope e ws) :
    primary.Derives scope e ("(" :: (ws ++ [")"])) := by
  obtain ⟨P, hP⟩ := h
  have hopening : (word .openParen "(").1.Written := .fixed (by decide) (by decide)
  have hclosing : (word .closeParen ")").1.Written := .fixed (by decide) (by decide)
  refine ⟨.group (word _ "(") P (word _ ")"), ?_, ?_, hP.tree,
    fun _ _ => hP.greedy fun t _ => ?_, hP.numerals, hP.names⟩
  · rw [← hP.words, Phrase.tokens, List.map_cons, List.map_append]
    rfl
  · exact List.forall_mem_cons.mpr ⟨hopening, List.forall_mem_append.mpr
      ⟨hP.written, List.forall_mem_singleton.mpr hclosing⟩⟩
  · cases t <;> rfl

theorem Derives.numeral {value : Int64} (h : 0 ≤ value.toInt) :
    primary.Derives scope (.integer value) [Decimal.ofInt value.toInt] := by
  obtain ⟨hword, hvalue⟩ := Decimal.isWord_ofInt value
  have hspells : Segment.IsNumeral (Utf8.encode (Decimal.ofInt value.toInt)) := by
    rw [← Int.toNat_of_nonneg h]
    exact Decimal.isNumeral_encode_ofInt _
  refine ⟨.numeral (word _ (Decimal.ofInt value.toInt)), rfl,
    List.forall_mem_singleton.mpr ⟨rfl, .numeral hspells⟩, ?_, fun _ _ => trivial,
    List.forall_mem_singleton.mpr hword, by simp [Phrase.names]⟩
  rw [Phrase.tree]
  exact congrArg Expr.integer ((congrArg Int64.ofInt hvalue).trans value.ofInt_toInt)

theorem Derives.boolean (value : Bool) :
    primary.Derives scope (.boolean value) [if value then "true" else "false"] := by
  cases value with
  | false =>
    have hword : (word .falseWord "false").1.Written := .fixed (by decide) (by decide)
    exact ⟨.no (word _ "false"), rfl, List.forall_mem_singleton.mpr hword, rfl,
      fun _ _ => trivial, by simp [Phrase.numerals], by simp [Phrase.names]⟩
  | true =>
    have hword : (word .trueWord "true").1.Written := .fixed (by decide) (by decide)
    exact ⟨.yes (word _ "true"), rfl, List.forall_mem_singleton.mpr hword, rfl,
      fun _ _ => trivial, by simp [Phrase.numerals], by simp [Phrase.names]⟩

theorem Derives.reference {name : String} (h : IsName name) (hname : name ∈ scope) :
    primary.Derives scope (.reference name (latest scope name)) [name] :=
  ⟨.name (word _ name), rfl, List.forall_mem_singleton.mpr ⟨rfl, .identifier h.1 h.2⟩, rfl,
    fun _ _ => trivial, by simp [Phrase.numerals], List.forall_mem_singleton.mpr hname⟩

/-- An expression can stand at every place, in parentheses where it needs them. -/
theorem Derives.enclosed (h : e.level.Derives scope e ws) (place : Level) :
    place.Derives scope e (Expr.enclosed place e.level ws) := by
  rw [Expr.enclosed]
  split
  next => exact (h.looser _ (Level.looseness_le _)).group.looser place (Nat.zero_le _)
  next hle => exact h.looser place (Nat.not_lt.mp hle)

end Level

end Grammar

open Grammar

/-- A printed expression has a derivation at the level of its outermost operator. -/
theorem Expr.derives {t : SymbolTable} {scope : List String} (h : t.Tracks scope) :
    (e : Expr) → e.Printable → e.Resolved t → e.level.Derives scope e e.words
  | integer _, hp, _ => .numeral hp
  | boolean value, _, _ => .boolean value
  | reference name index, hp, hr => by
    have hlatest : latest? name scope = some index := (h.latest name).symm.trans hr
    have hindex : latest scope name = index := by rw [latest, hlatest, Option.getD_some]
    have hname : name ∈ scope := latest?_isSome.mp (by rw [hlatest, Option.isSome_some])
    rw [← hindex]
    exact .reference hp hname
  | unary op operand, hp, hr => .sign op ((derives h operand hp hr).enclosed _)
  | binary op left right, ⟨hp, hp'⟩, ⟨hr, hr'⟩ =>
    .join op.node?_kind op.written ((derives h left hp hr).enclosed _)
      ((derives h right hp' hr').enclosed _)
  | comparison op left right, ⟨hp, hp'⟩, ⟨hr, hr'⟩ =>
    .join op.node?_kind op.written ((derives h left hp hr).enclosed _)
      ((derives h right hp' hr').enclosed _)
  | connective op left right, ⟨hp, hp'⟩, ⟨hr, hr'⟩ =>
    .join op.node?_kind op.written ((derives h left hp hr).enclosed _)
      ((derives h right hp' hr').enclosed _)

end TinyCompiler
