import TinyCompiler.Proofs.EndMarker
import TinyCompiler.Proofs.NestingBalance

/-! The parser always makes progress and ends. Its place among the tokens is never behind the first
end marker, and every call that succeeds steps past a token. So all that goes round or recurs ends,
on every list of tokens: no production ever comes to the end of its bound. -/
namespace TinyCompiler

open Grammar

namespace Production

variable {π π' : Production} {p p' : Parser}

/-- The bound of a production is enough if fewer tokens are left than this. A primary recurs behind
its parenthesis only. -/
def capacity : Production → Nat
  | tier _ bound | unary bound | statement bound | braces bound | program bound => bound
  | primary bound => bound + 1
  | nested inner => inner.capacity

/-- With a bound that is enough a production calls others with bounds that are. -/
theorem kept_short : Kept fun π => Parser.Short π.capacity where
  steady _ := Parser.steady_short
  calls h p hp := by
    cases h with
    | operand t bound => cases t <;> exact hp
    | primary bound | value bound | body bound | main bound | nested inner => exact hp
  behind h := by
    cases h with
    | sign bound | group bound | block bound => exact Parser.leads_short
    | value bound =>
      exact fun _ _ _ _ hts hk hp => Nat.lt_succ_of_lt (Parser.leads_short hts hk hp)

/-- A production and a parser that another one comes to, through all the calls in between. -/
inductive Comes (π : Production) (p : Parser) : Production → Parser → Prop where
  | here : Comes π p π p
  | further {ρ ρ' : Production} {q q' : Parser} (h : Comes π p ρ q) (hq : ρ.Enters q ρ' q') :
      Comes π p ρ' q'

theorem Comes.short (h : Comes π p π' p') (hp : p.Short π.capacity) : p'.Short π'.capacity := by
  -- Induction on the calls in between.
  induction h with
  | here => exact hp
  | further _ hq ih => exact hq.keeps kept_short ih

end Production

namespace Parser

variable {tokens : List Token} {limit bound n : Nat} {close : Kind} {p q : Parser}

def place (tokens : List Token) (p : Parser) : Nat := tokens.length - p.rest.length

/-- The number of the tokens in front of the first end marker, or of all if there is none. -/
def endPlace (tokens : List Token) : Nat := tokens.findIdx fun t => t.kind = .endOfInput

def Along (tokens : List Token) (p : Parser) : Prop :=
  ∃ read, tokens = read ++ p.rest ∧ ∀ t ∈ read, t.kind ≠ .endOfInput

namespace Along

theorem ahead (h : p.Along tokens) {read : List Token} (hq : p.rest = read ++ q.rest)
    (hread : ∀ t ∈ read, t.kind ≠ .endOfInput) : q.Along tokens := by
  obtain ⟨before, rfl, hbefore⟩ := h
  exact ⟨before ++ read, by rw [hq, List.append_assoc],
    List.forall_mem_append.mpr ⟨hbefore, hread⟩⟩

theorem rest_eq (h : p.Along tokens) : p.rest = tokens.drop (p.place tokens) := by
  obtain ⟨read, rfl, -⟩ := h
  simp [place]

theorem place_le (h : p.Along tokens) : p.place tokens ≤ endPlace tokens := by
  obtain ⟨read, rfl, hread⟩ := h
  rw [endPlace, List.findIdx_append, List.findIdx_eq_length_of_false (by simpa using hread)]
  simp [place]

/-- At the end, and only there, the current token is an end marker. -/
theorem at_end_iff (h : p.Along tokens) :
    p.place tokens = endPlace tokens ↔ p.peek.kind = .endOfInput := by
  obtain ⟨read, rfl, hread⟩ := h
  rw [endPlace, List.findIdx_append, List.findIdx_eq_length_of_false (by simpa using hread)]
  cases hr : p.rest with
  | nil => simp [place, hr, peek_of_rest_nil hr]
  | cons t ts =>
    by_cases hk : t.kind = .endOfInput <;>
      simp [place, hr, peek_of_rest hr, List.findIdx_cons, hk]

end Along

theorem along_start (tokens : List Token) (limit : Nat) : (start tokens limit).Along tokens :=
  ⟨[], rfl, by simp⟩

theorem steady_along : Steady (Along tokens) where
  advance p hp := by
    rw [Rule.apply_advance]
    by_cases hk : p.peek.kind = .endOfInput
    · rwa [advance, if_pos hk]
    · obtain ⟨ts, hts⟩ := exists_rest_of_peek rfl hk
      have hread : p.rest = [p.peek] ++ ts := hts
      rw [advance_of_rest hts hk]
      exact hp.ahead hread (by simpa using hk)
  deepen p hp := by
    rw [Rule.apply_deepen]
    split <;> exact hp
  rule π p hp := by
    obtain ⟨read, hread, hreal⟩ := π.exists_read p
    exact hp.ahead hread hreal

theorem Along.call (h : p.Along tokens) (c : Call) : (p.call c).Along tokens := by
  cases c with
  | expression => exact steady_along.rule (.expression _) p h
  | statement => exact steady_along.rule (.statement _) p h

theorem along_run (tokens : List Token) (limit : Nat) (calls : List Call) :
    ((start tokens limit).run calls).Along tokens := by
  have hrun (p : Parser) (h : p.Along tokens) : (p.run calls).Along tokens := by
    induction calls generalizing p with
    | nil => exact h
    | cons c calls ih => exact ih (p.call c) (h.call c)
  exact hrun _ (along_start tokens limit)

theorem Reachable.along (h : Reachable tokens limit p) : p.Along tokens :=
  h.keeps steady_along (along_run tokens limit)

theorem place_le_of_onward (h : p.Onward q) (tokens : List Token) :
    p.place tokens ≤ q.place tokens :=
  Nat.sub_le_sub_left h.rest.length_le _

/-- A call that gives a tree has stepped past a token. -/
theorem length_call_lt (p : Parser) {c : Call} (h : (p.reply c).isOk = true) :
    (p.call c).rest.length < p.rest.length := by
  cases c with
  | expression =>
    rcases he : p.expression with ⟨_ | e, q⟩
    · simp [reply, he, Reply.isOk, Except.isOk, Except.toBool] at h
    · rw [call, he]
      exact Rule.moves_expression _ p e q he
  | statement =>
    rcases hs : p.statement with ⟨_ | s, q⟩
    · simp [reply, hs, Reply.isOk, Except.isOk, Except.toBool] at h
    · rw [call, hs]
      exact Rule.moves_statement _ p s q hs

theorem Along.place_lt (h : p.Along tokens) {c : Call} (hc : (p.reply c).isOk = true) :
    p.place tokens < (p.call c).place tokens := by
  have hlt := p.length_call_lt hc
  obtain ⟨read, rfl, -⟩ := h
  simp only [place, List.length_append]
  omega

/-- Statements are read up to a token of the closing kind: the statements, and whether the loop
ends with success, and where. It fails at an end marker, and if a statement does. -/
inductive Rounds (close : Kind) :
    Parser → List Stmt → Except SyntaxError Unit × Parser → Prop where
  | closed {p : Parser} (h : p.peek.kind = close) : Rounds close p [] (.ok (), p)
  | unclosed {p : Parser} (h : p.peek.kind ≠ close) (he : p.peek.kind = .endOfInput) :
      Rounds close p [] (.error (.unclosed close p.peek), p)
  | failed {p q : Parser} {e : SyntaxError} (h : p.peek.kind ≠ close)
      (he : p.peek.kind ≠ .endOfInput) (hs : p.statement = (.error e, q)) :
      Rounds close p [] (.error e, q)
  | round {p q : Parser} {s : Stmt} {done : List Stmt} {out : Except SyntaxError Unit × Parser}
      (h : p.peek.kind ≠ close) (he : p.peek.kind ≠ .endOfInput)
      (hs : p.statement = (.ok s, q)) (hq : Rounds close q done out) :
      Rounds close p (s :: done) out

/-- The loop ends, and there is a token for each of its rounds. Induction on the number of tokens
left, which every round lowers. -/
theorem exists_rounds (close : Kind) (p : Parser) :
    ∃ done out, Rounds close p done out ∧ done.length + out.2.rest.length ≤ p.rest.length := by
  induction hn : p.rest.length using Nat.strong_induction_on generalizing p with
  | _ n ih =>
    subst hn
    by_cases hk : p.peek.kind = close
    · exact ⟨[], _, .closed hk, by simp⟩
    by_cases he : p.peek.kind = .endOfInput
    · exact ⟨[], _, .unclosed hk he, by simp⟩
    rcases hs : p.statement with ⟨e | s, q⟩
    · refine ⟨[], _, .failed hk he hs, ?_⟩
      simpa using (Onward.of_statement hs).rest.length_le
    · have hlt : q.rest.length < p.rest.length := Rule.moves_statement _ p s q hs
      obtain ⟨done, out, hrounds, hlen⟩ := ih q.rest.length hlt q rfl
      refine ⟨s :: done, out, .round hk he hs hrounds, ?_⟩
      rw [List.length_cons]
      omega

theorem Rounds.untilKind {done : List Stmt} {out : Except SyntaxError Unit × Parser}
    (h : Rounds close p done out) (hb : p.rest.length < bound) (hn : p.rest.length < n) :
    (Rule.untilKind close (Rule.statement bound) n).apply p =
      (out.1.map fun _ => done, out.2) := by
  induction h generalizing n with
  | closed hk =>
    obtain ⟨n, rfl⟩ := Nat.exists_eq_add_of_lt hn
    exact Rule.untilKind_of_close hk
  | unclosed hk he =>
    obtain ⟨n, rfl⟩ := Nat.exists_eq_add_of_lt hn
    exact Rule.untilKind_of_end hk he
  | failed hk he hs =>
    obtain ⟨n, rfl⟩ := Nat.exists_eq_add_of_lt hn
    rw [Rule.untilKind_of_other hk he, Rule.apply_bind, statement_of_bound hb, hs]
    rfl
  | @round p q s done out hk he hs _ ih =>
    have hlt : q.rest.length < p.rest.length := Rule.moves_statement _ p s q hs
    obtain ⟨n, rfl⟩ := Nat.exists_eq_add_of_lt hn
    rw [Rule.untilKind_of_other hk he, Rule.apply_bind, statement_of_bound hb, hs]
    simp only
    rw [Rule.apply_map, ih (Nat.lt_trans hlt hb) (by omega)]
    rcases out with ⟨_ | _, _⟩ <;> rfl

theorem Rounds.program {done : List Stmt} {out : Except SyntaxError Unit × Parser}
    (h : Rounds .endOfInput p done out) :
    p.program = out.1.map fun _ => ⟨done, out.2.symbols⟩ := by
  have hstatements : p.statements = (out.1.map fun _ => done, out.2) :=
    h.untilKind (Nat.lt_succ_self _) (Nat.lt_succ_self _)
  rw [Parser.program, hstatements]
  rcases out with ⟨_ | _, _⟩ <;> rfl

/-- The parser always makes progress and ends. In every session, whatever fails in it, a parser
never stands behind the first end marker; a call never moves it back, steps past a token if it
gives a tree, and gives none at the end. So every loop over statements ends, with no more rounds
than there are tokens left, a whole program with its errors included. What recurs ends as well:
every production that a call comes to has its bound above the number of tokens left, and no higher
bound gives anything else. -/
theorem progress_and_end (tokens : List Token) (limit : Nat) :
    (∀ p, Reachable tokens limit p →
      p.rest = tokens.drop (p.place tokens) ∧ p.place tokens ≤ endPlace tokens ∧
      (p.place tokens = endPlace tokens ↔ p.peek.kind = .endOfInput) ∧
      (∀ c : Call, p.place tokens ≤ (p.call c).place tokens ∧
        (p.call c).place tokens ≤ endPlace tokens ∧
        ((p.reply c).isOk = true → p.place tokens < (p.call c).place tokens) ∧
        (p.peek.kind = .endOfInput → (p.reply c).isOk = false)) ∧
      ∃ done out, Rounds .endOfInput p done out ∧ p.place tokens + done.length ≤ tokens.length ∧
        p.program = out.1.map fun _ => ⟨done, out.2.symbols⟩) ∧
    (∀ (p : Parser) (close : Kind), ∃ done out, Rounds close p done out ∧
      done.length + out.2.rest.length ≤ p.rest.length ∧
      ∀ bound n, p.rest.length < bound → p.rest.length < n →
        (Rule.untilKind close (Rule.statement bound) n).apply p =
          (out.1.map fun _ => done, out.2)) ∧
    ∀ (p : Parser) (bound : Nat), p.rest.length < bound →
      (Rule.expression bound).apply p = p.expression ∧
      (Rule.statement bound).apply p = p.statement ∧
      ∀ π ∈ [Production.expression bound, .statement bound, .program bound],
        ∀ ρ q, π.Comes p ρ q → q.rest.length < ρ.capacity := by
  refine ⟨fun p hp => ?_, fun p close => ?_, fun p bound hb => ?_⟩
  · have halong := hp.along
    refine ⟨halong.rest_eq, halong.place_le, halong.at_end_iff, fun c => ?_, ?_⟩
    · have hle := (halong.call c).place_le
      refine ⟨place_le_of_onward (p.onward_call c) tokens, hle, halong.place_lt, fun hk => ?_⟩
      -- A tree would have moved the parser past the marker.
      by_contra hok
      have hlt := halong.place_lt (Bool.not_eq_false _ ▸ hok)
      rw [halong.at_end_iff.mpr hk] at hlt
      exact absurd hle (Nat.not_le_of_lt hlt)
    · obtain ⟨done, out, hrounds, hlen⟩ := exists_rounds .endOfInput p
      refine ⟨done, out, hrounds, ?_, hrounds.program⟩
      obtain ⟨read, rfl, -⟩ := halong
      simp only [place, List.length_append]
      omega
  · obtain ⟨done, out, hrounds, hlen⟩ := exists_rounds close p
    exact ⟨done, out, hrounds, hlen, fun bound n hb hn => hrounds.untilKind hb hn⟩
  · refine ⟨expression_of_bound hb, statement_of_bound hb, fun π hπ ρ q hcomes => ?_⟩
    refine hcomes.short ?_
    simp only [List.mem_cons, List.not_mem_nil, or_false] at hπ
    obtain rfl | rfl | rfl := hπ <;> exact hb

end Parser

end TinyCompiler
