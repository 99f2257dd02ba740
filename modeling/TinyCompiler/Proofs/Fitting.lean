import TinyCompiler.Proofs.Derivation
import TinyCompiler.Proofs.RuleLaws

/-! Phrases at the front of the tokens that a parser has left: greedy, with numerals that are
words, with names that are bound, and with room for the nesting. A phrase fits exactly if its
parts fit one behind the other. -/
namespace TinyCompiler

open Grammar

namespace Grammar

@[simp] theorem firstKind_nil (k : Kind) : firstKind [] k = k := rfl

@[simp] theorem firstKind_cons (t : Token) (ts : List Token) (k : Kind) :
    firstKind (t :: ts) k = t.kind := rfl

theorem firstKind_append (ts us : List Token) (k : Kind) :
    firstKind (ts ++ us) k = firstKind ts (firstKind us k) := by
  cases ts <;> rfl

theorem node?_endOfInput (t : Tier) : t.node? .endOfInput = none := by cases t <;> rfl

theorem ne_endOfInput_of_node? {t : Tier} {k : Kind} {node : Expr → Expr → Expr}
    (h : t.node? k = some node) : k ≠ .endOfInput := by
  rintro rfl
  rw [node?_endOfInput] at h
  cases h

def Links.length : {t : Tier} → Links t → Nat
  | _, .nil => 0
  | _, .cons _ _ _ _ rest => rest.length + 1

/-- A phrase has a primary, which needs all the levels around the phrase. -/
theorem Phrase.exists_need : {l : Level} → (P : Phrase l) → (around : Nat) →
    ∃ n ∈ P.needs around, around ≤ n
  | _, .numeral _, around | _, .yes _, around | _, .no _, around | _, .name _, around =>
    ⟨around, by simp [Phrase.needs], Nat.le_refl _⟩
  | _, .group _ _ _, around => ⟨around, by simp [Phrase.needs], Nat.le_refl _⟩
  | _, .bare operand, around => operand.exists_need around
  | _, .sign _ _ operand, around | _, .plus _ operand, around => by
    obtain ⟨n, hn, h⟩ := operand.exists_need (around + 1)
    exact ⟨n, hn, by omega⟩
  | _, .chain first links, around => by
    obtain ⟨n, hn, h⟩ := first.exists_need around
    exact ⟨n, by simp [Phrase.needs, hn], h⟩

def starters : List Kind :=
  [.integer, .identifier, .trueWord, .falseWord, .openParen, .minus, .bang, .plus]

theorem Phrase.exists_starter : {l : Level} → (P : Phrase l) →
    ∃ t ts, P.tokens = t :: ts ∧ t.kind ∈ starters
  | _, .numeral t => ⟨t.1, [], rfl, by rw [t.2]; decide⟩
  | _, .yes t => ⟨t.1, [], rfl, by rw [t.2]; decide⟩
  | _, .no t => ⟨t.1, [], rfl, by rw [t.2]; decide⟩
  | _, .name t => ⟨t.1, [], rfl, by rw [t.2]; decide⟩
  | _, .group opening inner closing => ⟨opening.1, _, rfl, by rw [opening.2]; decide⟩
  | _, .bare operand => operand.exists_starter
  | _, .sign op t operand => ⟨t.1, _, rfl, by rw [t.2]; cases op <;> decide⟩
  | _, .plus t operand => ⟨t.1, _, rfl, by rw [t.2]; decide⟩
  | _, .chain first links => by
    obtain ⟨t, ts, ht, hk⟩ := first.exists_starter
    exact ⟨t, ts ++ links.tokens, by rw [Phrase.tokens, ht]; rfl, hk⟩

def enders : List Kind := [.integer, .identifier, .trueWord, .falseWord, .closeParen]

mutual

theorem Phrase.exists_last : {l : Level} → (P : Phrase l) →
    ∃ t, P.tokens.getLast? = some t ∧ t.kind ∈ enders
  | _, .numeral t => ⟨t.1, rfl, by rw [t.2]; decide⟩
  | _, .yes t => ⟨t.1, rfl, by rw [t.2]; decide⟩
  | _, .no t => ⟨t.1, rfl, by rw [t.2]; decide⟩
  | _, .name t => ⟨t.1, rfl, by rw [t.2]; decide⟩
  | _, .group opening inner closing =>
    ⟨closing.1, by rw [Phrase.tokens, ← List.cons_append, List.getLast?_concat],
      by rw [closing.2]; decide⟩
  | _, .bare operand => Phrase.exists_last operand
  | _, .sign _ _ operand | _, .plus _ operand => by
    obtain ⟨t, ht, hk⟩ := Phrase.exists_last operand
    exact ⟨t, by rw [Phrase.tokens, List.getLast?_cons, ht]; rfl, hk⟩
  | _, .chain first links => Links.exists_last links first.tokens (Phrase.exists_last first)

theorem Links.exists_last : {t : Tier} → (L : Links t) → (before : List Token) →
    (∃ t, before.getLast? = some t ∧ t.kind ∈ enders) →
      ∃ t, (before ++ L.tokens).getLast? = some t ∧ t.kind ∈ enders
  | _, .nil, before, h => by rwa [Links.tokens, List.append_nil]
  | _, .cons op _ _ right rest, before, _ => by
    have hright : ∃ t, (before ++ op :: right.tokens).getLast? = some t ∧ t.kind ∈ enders := by
      obtain ⟨t, ht, hk⟩ := Phrase.exists_last right
      exact ⟨t, by rw [List.getLast?_append, List.getLast?_cons, ht]; rfl, hk⟩
    have hrest := Links.exists_last rest _ hright
    rwa [List.append_assoc, List.cons_append] at hrest

end

/-- A phrase stands at the front of the tokens that a parser has left. -/
structure Phrase.Fits {l : Level} (P : Phrase l) (p : Parser) (rest : List Token) : Prop where
  text : p.rest = P.tokens ++ rest
  greedy : P.Greedy (firstKind rest .endOfInput)
  words : ∀ s ∈ P.numerals, Decimal.IsWord s
  bound : ∀ x ∈ P.names, p.symbols.contains x = true
  room : ∀ n ∈ P.needs p.depth, n ≤ p.limit

structure Links.Fits {t : Tier} (L : Links t) (p : Parser) (rest : List Token) : Prop where
  text : p.rest = L.tokens ++ rest
  greedy : L.Greedy (firstKind rest .endOfInput)
  words : ∀ s ∈ L.numerals, Decimal.IsWord s
  bound : ∀ x ∈ L.names, p.symbols.contains x = true
  room : ∀ n ∈ L.needs p.depth, n ≤ p.limit

end Grammar

namespace Parser

theorem peek_kind (p : Parser) : p.peek.kind = firstKind p.rest .endOfInput := by
  cases h : p.rest with
  | nil => exact peek_of_rest_nil h
  | cons t ts => rw [peek_of_rest h, firstKind_cons]

def binding (p : Parser) (name : String) : Nat := (p.symbols.lookup name).getD 0

/-- One level deeper, with these tokens left. -/
def inside (p : Parser) (ts : List Token) : Parser := { p with rest := ts, depth := p.depth + 1 }

@[simp] theorem inside_rest (p : Parser) (ts : List Token) : (p.inside ts).rest = ts := rfl
@[simp] theorem inside_limit (p : Parser) (ts : List Token) : (p.inside ts).limit = p.limit := rfl
@[simp] theorem inside_depth (p : Parser) (ts : List Token) :
    (p.inside ts).depth = p.depth + 1 := rfl
@[simp] theorem inside_symbols (p : Parser) (ts : List Token) :
    (p.inside ts).symbols = p.symbols := rfl
@[simp] theorem inside_lastLine (p : Parser) (ts : List Token) :
    (p.inside ts).lastLine = p.lastLine := rfl
@[simp] theorem inside_binding (p : Parser) (ts : List Token) :
    (p.inside ts).binding = p.binding := rfl

theorem exists_token {p : Parser} {k : Kind} (h : p.peek.kind = k) (hk : k ≠ .endOfInput) :
    ∃ (t : TokenOf k) (ts : List Token), p.rest = t.1 :: ts := by
  obtain ⟨ts, hr⟩ := exists_rest_of_peek h hk
  exact ⟨⟨p.peek, h⟩, ts, hr⟩

theorem advance_of_token {p : Parser} {k : Kind} {t : TokenOf k} {ts : List Token}
    (hr : p.rest = t.1 :: ts) (hk : k ≠ .endOfInput) : p.advance = { p with rest := ts } :=
  advance_of_rest hr (by rw [t.2]; exact hk)

theorem length_lt_of_token {p : Parser} {t : Token} {ts : List Token} {n : Nat}
    (hr : p.rest = t :: ts) (h : p.rest.length < n + 1) : ts.length < n := by
  rw [hr, List.length_cons] at h
  exact Nat.lt_of_succ_lt_succ h

end Parser

namespace Grammar

variable {p : Parser} {rest : List Token} {t : Tier}

theorem Links.fits_nil :
    (Links.nil : Links t).Fits p rest ↔ p.rest = rest ∧ t.node? p.peek.kind = none := by
  constructor
  · rintro ⟨h, hg, -, -, -⟩
    rw [Links.tokens, List.nil_append] at h
    rw [Links.Greedy] at hg
    rw [Parser.peek_kind, h]
    exact ⟨rfl, hg⟩
  · rintro ⟨rfl, h⟩
    rw [Parser.peek_kind] at h
    exact ⟨rfl, h, by simp [Links.numerals], by simp [Links.names], by simp [Links.needs]⟩

theorem Links.fits_cons {op : Token} {node : Expr → Expr → Expr} {h : t.node? op.kind = some node}
    {right : Phrase t.operand} {more : Links t} :
    (Links.cons op node h right more).Fits p rest ↔ ∃ ts, p.rest = op :: ts ∧
      right.Fits (p.inside ts) (more.tokens ++ rest) ∧
        more.Fits (p.inside (more.tokens ++ rest)) rest := by
  constructor
  · rintro ⟨ht, hg, hw, hb, hr⟩
    simp only [Links.tokens, Links.Greedy, Links.numerals, Links.names, Links.needs,
      List.forall_mem_append] at ht hg hw hb hr
    refine ⟨right.tokens ++ (more.tokens ++ rest), by simpa using ht,
      ⟨rfl, ?_, hw.1, hb.1, hr.1⟩, ⟨rfl, hg.2, hw.2, hb.2, hr.2⟩⟩
    rw [firstKind_append]
    exact hg.1
  · rintro ⟨ts, ht, hright, hmore⟩
    obtain ⟨hr, hg, hw, hb, hn⟩ := hright
    rw [firstKind_append] at hg
    rw [Parser.inside_rest] at hr
    refine ⟨by simp [ht, hr, Links.tokens], ⟨hg, hmore.greedy⟩, ?_, ?_, ?_⟩
    · exact List.forall_mem_append.mpr ⟨hw, hmore.words⟩
    · exact List.forall_mem_append.mpr ⟨hb, hmore.bound⟩
    · exact List.forall_mem_append.mpr ⟨hn, hmore.room⟩

/-- There are no links in front of a token that is no operator. -/
theorem Links.Fits.eq_nil {L : Links t} (h : L.Fits p rest) (hstop : t.node? p.peek.kind = none) :
    L = .nil := by
  cases L with
  | nil => rfl
  | cons op node hnode right more =>
    obtain ⟨ts, hts, -⟩ := Links.fits_cons.mp h
    rw [← Parser.peek_of_rest hts, hstop] at hnode
    cases hnode

/-- In front of an operator there are links, of which the first has it. -/
theorem Links.Fits.eq_cons {L : Links t} {ts : List Token} {node : Expr → Expr → Expr}
    (h : L.Fits p rest) (hts : p.rest = p.peek :: ts) (hnode : t.node? p.peek.kind = some node) :
    ∃ (right : Phrase t.operand) (more : Links t), L = .cons p.peek node hnode right more ∧
      right.Fits (p.inside ts) (more.tokens ++ rest) ∧
        more.Fits (p.inside (more.tokens ++ rest)) rest := by
  cases L with
  | nil =>
    rw [(Links.fits_nil.mp h).2] at hnode
    cases hnode
  | cons op node' hnode' right more =>
    obtain ⟨ts', hts', hright, hmore⟩ := Links.fits_cons.mp h
    obtain ⟨rfl, rfl⟩ : p.peek = op ∧ ts = ts' := by simpa [hts] using hts'
    obtain rfl : node = node' := Option.some.inj (hnode.symm.trans hnode')
    exact ⟨right, more, rfl, hright, hmore⟩

theorem Phrase.fits_chain {first : Phrase t.operand} {links : Links t} :
    (Phrase.chain first links).Fits p rest ↔ first.Fits p (links.tokens ++ rest) ∧
      links.Fits { p with rest := links.tokens ++ rest } rest := by
  constructor
  · rintro ⟨ht, hg, hw, hb, hr⟩
    simp only [Phrase.tokens, Phrase.Greedy, Phrase.numerals, Phrase.names, Phrase.needs,
      List.forall_mem_append] at ht hg hw hb hr
    refine ⟨⟨by simpa using ht, ?_, hw.1, hb.1, hr.1⟩, ⟨rfl, hg.2, hw.2, hb.2, hr.2⟩⟩
    rw [firstKind_append]
    exact hg.1
  · rintro ⟨⟨ht, hg, hw, hb, hn⟩, hlinks⟩
    rw [firstKind_append] at hg
    refine ⟨by simp [ht, Phrase.tokens], ⟨hg, hlinks.greedy⟩, ?_, ?_, ?_⟩
    · exact List.forall_mem_append.mpr ⟨hw, hlinks.words⟩
    · exact List.forall_mem_append.mpr ⟨hb, hlinks.bound⟩
    · exact List.forall_mem_append.mpr ⟨hn, hlinks.room⟩

theorem Phrase.fits_bare {operand : Phrase .primary} :
    (Phrase.bare operand).Fits p rest ↔ operand.Fits p rest :=
  ⟨fun ⟨h, hg, hw, hb, hn⟩ => ⟨h, hg, hw, hb, hn⟩, fun ⟨h, hg, hw, hb, hn⟩ => ⟨h, hg, hw, hb, hn⟩⟩

/-- In front of its operand stands a token, which takes a level. -/
theorem Phrase.fits_prefixed {P operand : Phrase .unary} {s : Token}
    (htokens : P.tokens = s :: operand.tokens) (hgreedy : ∀ k, P.Greedy k = operand.Greedy k)
    (hnumerals : P.numerals = operand.numerals) (hnames : P.names = operand.names)
    (hneeds : ∀ n, P.needs n = operand.needs (n + 1)) :
    P.Fits p rest ↔ ∃ ts, p.rest = s :: ts ∧ operand.Fits (p.inside ts) rest := by
  constructor
  · rintro ⟨ht, hg, hw, hb, hn⟩
    rw [htokens] at ht
    rw [hgreedy] at hg
    rw [hnumerals] at hw
    rw [hnames] at hb
    rw [hneeds] at hn
    exact ⟨_, ht, ⟨rfl, hg, hw, hb, hn⟩⟩
  · rintro ⟨ts, ht, hr, hg, hw, hb, hn⟩
    rw [Parser.inside_rest] at hr
    refine ⟨by rw [ht, hr, htokens, List.cons_append], ?_, hnumerals ▸ hw, hnames ▸ hb, ?_⟩
    · rwa [hgreedy]
    · rwa [hneeds]

theorem Phrase.fits_sign {op : UnaryOp} {s : TokenOf (signKind op)} {operand : Phrase .unary} :
    (Phrase.sign op s operand).Fits p rest ↔
      ∃ ts, p.rest = s.1 :: ts ∧ operand.Fits (p.inside ts) rest :=
  fits_prefixed rfl (fun _ => rfl) rfl rfl fun _ => rfl

theorem Phrase.fits_plus {s : TokenOf .plus} {operand : Phrase .unary} :
    (Phrase.plus s operand).Fits p rest ↔
      ∃ ts, p.rest = s.1 :: ts ∧ operand.Fits (p.inside ts) rest :=
  fits_prefixed rfl (fun _ => rfl) rfl rfl fun _ => rfl

theorem Phrase.fits_single {P : Phrase .primary} {t : Token} (htokens : P.tokens = [t])
    (hgreedy : ∀ k, P.Greedy k) (hneeds : ∀ n, P.needs n = [n]) :
    P.Fits p rest ↔ p.rest = t :: rest ∧ (∀ s ∈ P.numerals, Decimal.IsWord s) ∧
      (∀ x ∈ P.names, p.symbols.contains x = true) ∧ p.depth ≤ p.limit := by
  constructor
  · rintro ⟨ht, -, hw, hb, hn⟩
    rw [htokens] at ht
    rw [hneeds] at hn
    exact ⟨ht, hw, hb, hn _ List.mem_cons_self⟩
  · rintro ⟨ht, hw, hb, hn⟩
    refine ⟨by rw [ht, htokens, List.singleton_append], hgreedy _, hw, hb, ?_⟩
    rw [hneeds]
    exact List.forall_mem_singleton.mpr hn

theorem Phrase.fits_numeral {t : TokenOf .integer} : (Phrase.numeral t).Fits p rest ↔
    p.rest = t.1 :: rest ∧ Decimal.IsWord t.1.lexeme ∧ p.depth ≤ p.limit := by
  rw [fits_single (P := .numeral t) rfl (fun _ => trivial) fun _ => rfl]
  simp [Phrase.numerals, Phrase.names]

theorem Phrase.fits_name {t : TokenOf .identifier} : (Phrase.name t).Fits p rest ↔
    p.rest = t.1 :: rest ∧ p.symbols.contains t.1.lexeme = true ∧ p.depth ≤ p.limit := by
  rw [fits_single (P := .name t) rfl (fun _ => trivial) fun _ => rfl]
  simp [Phrase.numerals, Phrase.names]

theorem Phrase.fits_yes {t : TokenOf .trueWord} :
    (Phrase.yes t).Fits p rest ↔ p.rest = t.1 :: rest ∧ p.depth ≤ p.limit := by
  rw [fits_single (P := .yes t) rfl (fun _ => trivial) fun _ => rfl]
  simp [Phrase.numerals, Phrase.names]

theorem Phrase.fits_no {t : TokenOf .falseWord} :
    (Phrase.no t).Fits p rest ↔ p.rest = t.1 :: rest ∧ p.depth ≤ p.limit := by
  rw [fits_single (P := .no t) rfl (fun _ => trivial) fun _ => rfl]
  simp [Phrase.numerals, Phrase.names]

theorem Phrase.fits_group {opening : TokenOf .openParen} {inner : Expression}
    {closing : TokenOf .closeParen} :
    (Phrase.group opening inner closing).Fits p rest ↔
      ∃ ts, p.rest = opening.1 :: ts ∧ inner.Fits (p.inside ts) (closing.1 :: rest) := by
  constructor
  · rintro ⟨ht, hg, hw, hb, hn⟩
    simp only [Phrase.tokens, Phrase.needs, List.forall_mem_cons] at ht hn
    refine ⟨_, by simpa using ht, ⟨rfl, ?_, hw, hb, hn.2⟩⟩
    rw [firstKind_cons, closing.2]
    exact hg
  · rintro ⟨ts, ht, hr, hg, hw, hb, hn⟩
    rw [Parser.inside_rest] at hr
    rw [firstKind_cons, closing.2] at hg
    obtain ⟨n, hmem, hle⟩ := inner.exists_need (p.depth + 1)
    have hlimit : n ≤ p.limit := hn n hmem
    refine ⟨by simp [ht, hr, Phrase.tokens], hg, hw, hb, ?_⟩
    exact List.forall_mem_cons.mpr ⟨by omega, hn⟩

theorem Phrase.Fits.length_lt {l : Level} {P : Phrase l} (h : P.Fits p rest) :
    rest.length < p.rest.length := by
  obtain ⟨t, ts, ht, -⟩ := P.exists_starter
  rw [h.text, ht]
  simp only [List.length_append, List.length_cons]
  omega

end Grammar

end TinyCompiler
