import TinyCompiler.Proofs.Productions

/-! The counter of open levels over a whole session. Every production leaves it as it was, on
success and on failure, nothing is ever read above the limit, and the level that a nested
production closes is its own. So a session leaves no trace in the counter. -/
namespace TinyCompiler

namespace Parser

variable {limit : Nat}

structure Within (limit : Nat) (p : Parser) : Prop where
  limit_eq : p.limit = limit
  depth_le : p.depth ≤ limit

theorem Onward.within {p q : Parser} (h : p.Onward q) (hp : p.Within limit) : q.Within limit :=
  ⟨h.limit.trans hp.limit_eq, by rw [h.depth]; exact hp.depth_le⟩

/-- A level is opened below the limit only. -/
theorem stays_deepen_within : Rule.deepen.Stays (Within limit) := by
  intro p hp
  rw [Rule.apply_deepen]
  split
  next hdepth =>
    rw [hp.limit_eq] at hdepth
    exact ⟨hp.limit_eq, hdepth⟩
  next => exact hp

theorem steady_within : Steady (Within limit) where
  advance p hp := p.advance_onward.within hp
  deepen := stays_deepen_within
  rule π p hp := (π.onward p).within hp

end Parser

namespace Production

variable {π π' : Production} {p p' : Parser} {I : Production → Parser → Prop}

/-- The rules of the productions, except that one production fails on one parser. -/
def failingAt (π : Production) (p : Parser) (e : SyntaxError) (ρ : Production) : Rule ρ.Tree :=
  ExceptT.mk fun q => if ρ = π ∧ q = p then (.error e, q) else ρ.rule.apply q

theorem apply_failingAt (π : Production) (p : Parser) (e : SyntaxError) (ρ : Production)
    (q : Parser) : (failingAt π p e ρ).apply q =
      if ρ = π ∧ q = p then (.error e, q) else ρ.rule.apply q := rfl

/-- On its way through the tokens a production calls another one on the parser `p'`: there is an
error such that, if the other one failed there with it, something else would come out. -/
def Enters (π : Production) (p : Parser) (π' : Production) (p' : Parser) : Prop :=
  ∃ e, (π.body (failingAt π' p' e)).apply p ≠ π.rule.apply p

theorem Enters.keeps (h : Enters π p π' p') (hI : Kept I) (hp : I π p) : I π' p' := by
  obtain ⟨e, he⟩ := h
  by_contra hout
  refine he (agrees hI (fun ρ q hq => ?_) π p hp)
  rw [apply_failingAt, if_neg]
  rintro ⟨rfl, rfl⟩
  exact hout hq

theorem enters_nested (π : Production) (h : p.depth < p.limit) :
    Enters (nested π) p π { p with depth := p.depth + 1 } := by
  obtain ⟨e, he⟩ : ∃ e, (π.rule.apply { p with depth := p.depth + 1 }).1 ≠ .error e := by
    by_contra hall
    have hevery := not_exists_not.mp hall
    cases (hevery (.tooDeep 0 0)).symm.trans (hevery (.tooDeep 1 0))
  refine ⟨e, fun heq => he ?_⟩
  have hinner : (Rule.nested (failingAt π _ e π)).apply p = (Rule.nested π.rule).apply p := heq
  rw [Rule.apply_nested, Rule.apply_nested, if_pos h, if_pos h, apply_failingAt,
    if_pos ⟨rfl, rfl⟩] at hinner
  exact (congrArg Prod.fst hinner).symm

end Production

namespace Parser

variable {tokens : List Token} {limit : Nat} {p : Parser}

/-- The parsers of the sessions over some tokens under a limit: those between the calls, those
that a production is entered with, and those that one leaves. -/
inductive Reachable (tokens : List Token) (limit : Nat) : Parser → Prop where
  | between (calls : List Call) : Reachable tokens limit ((start tokens limit).run calls)
  | entered {π π' : Production} {p q : Parser} (h : Reachable tokens limit p)
      (hq : π.Enters p π' q) : Reachable tokens limit q
  | left {p : Parser} (h : Reachable tokens limit p) (π : Production) :
      Reachable tokens limit (π.rule.apply p).2

/-- What is steady and holds between the calls holds everywhere. Induction on the way to the
parser. -/
theorem Reachable.keeps (h : Reachable tokens limit p) {I : Parser → Prop} (hI : Steady I)
    (hbetween : ∀ calls, I ((start tokens limit).run calls)) : I p := by
  induction h with
  | between calls => exact hbetween calls
  | entered _ hq ih => exact hq.keeps (Production.kept_of_steady hI) ih
  | left _ π ih => exact hI.rule π _ ih

theorem Reachable.within (h : Reachable tokens limit p) : p.Within limit :=
  h.keeps steady_within fun calls =>
    (onward_run (start tokens limit) calls).within ⟨rfl, Nat.zero_le _⟩

/-- Levels never leak. In every session, whatever fails in it, the depth is nowhere above the
limit, every production leaves it as it was, and a nested production closes the one level that it
has opened. Between its calls the session stands where a new parser under the same limit stands
that is placed at the same token with the same table. -/
theorem nesting_never_leaks (tokens : List Token) (limit : Nat) :
    (∀ p, Reachable tokens limit p → p.limit = limit ∧ p.depth ≤ limit ∧
      ∀ π : Production, (π.rule.apply p).2.depth = p.depth ∧
        (p.depth < limit → π.nested.Enters p π { p with depth := p.depth + 1 } ∧
          ∃ result q, π.rule.apply { p with depth := p.depth + 1 } = (result, q) ∧
            q.depth = p.depth + 1 ∧
            π.nested.rule.apply p = (result, { q with depth := q.depth - 1 }))) ∧
    ∀ calls, let p := (start tokens limit).run calls
      p = placed tokens limit (tokens.length - p.rest.length) p.symbols := by
  refine ⟨fun p hp => ⟨hp.within.limit_eq, hp.within.depth_le, fun π => ⟨(π.onward p).depth,
    fun hdepth => ?_⟩⟩, run_eq_placed tokens limit⟩
  have hbelow : p.depth < p.limit := hp.within.limit_eq ▸ hdepth
  exact ⟨π.enters_nested hbelow, _, _, rfl, (π.onward _).depth,
    (Rule.apply_nested π.rule p).trans (if_pos hbelow)⟩

end Parser

end TinyCompiler
