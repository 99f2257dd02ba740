import Mathlib.Order.Bounds.Basic
import TinyCompiler.Proofs.Linking

/-! Tables by the calls that built them. A table never forgets: it holds one entry for each call
that succeeded, in the order of the calls, and the entries alone tell where every name points and
in which order the names stand. -/
namespace TinyCompiler

namespace SymbolTable

inductive Call
  | declare (name : String) (value : Expr)
  | assign (name : String) (value : Expr) (line : Nat)
  deriving DecidableEq

def Call.entry : Call → Binding
  | declare name value | assign name value _ => ⟨name, value⟩

/-- What a call returns, and the table behind it. A call that fails leaves the table as it is. -/
def answer (t : SymbolTable) : Call → Except SyntaxError Nat × SymbolTable
  | .declare name value => (.ok (t.declare name value).1, (t.declare name value).2)
  | .assign name value line =>
    match t.assign name value line with
    | .ok (index, later) => (.ok index, later)
    | .error e => (.error e, t)

def after (t : SymbolTable) (calls : List Call) : SymbolTable :=
  calls.foldl (fun t c => (t.answer c).2) t

/-- The calls that succeed, in their order, each with the index that it returns. -/
def succeeded (t : SymbolTable) : List Call → List (Call × Nat)
  | [] => []
  | c :: rest =>
    match t.answer c with
    | (.ok index, later) => (c, index) :: later.succeeded rest
    | (.error _, later) => later.succeeded rest

def bound (t : SymbolTable) : List String := t.bindings.toList.map Binding.name

/-- Every name points at its latest entry, and the names stand once each, as they first came. -/
structure Consistent (t : SymbolTable) : Prop where
  tracks : t.Tracks t.bound
  names : t.names = t.bound.eraseDups
  nodup : t.names.Nodup

variable {t : SymbolTable}

@[simp] theorem after_nil (t : SymbolTable) : t.after [] = t := rfl
@[simp] theorem after_cons (t : SymbolTable) (c : Call) (rest : List Call) :
    t.after (c :: rest) = (t.answer c).2.after rest := rfl

/-- A call makes its entry at the end of the table, unless it assigns to a name that is not
declared. -/
theorem answer_cases (t : SymbolTable) (c : Call) :
    t.answer c = (.ok t.bindings.size, (t.declare c.entry.name c.entry.value).2) ∨
      ∃ name value line, c = .assign name value line ∧ t.contains name = false ∧
        t.answer c = (.error (.undeclared name line), t) := by
  cases c with
  | declare name value => exact .inl rfl
  | assign name value line =>
    cases h : t.contains name with
    | true => exact .inl (by simp [answer, assign, h, Call.entry, declare])
    | false => exact .inr ⟨name, value, line, rfl, h, by simp [answer, assign, h]⟩

theorem consistent_empty : empty.Consistent := ⟨tracks_empty, rfl, .nil⟩

theorem bound_declare (t : SymbolTable) (name : String) (value : Expr) :
    (t.declare name value).2.bound = t.bound ++ [name] := by
  simp [bound, SymbolTable.declare]

theorem Consistent.declare (h : t.Consistent) (name : String) (value : Expr) :
    (t.declare name value).2.Consistent := by
  refine ⟨bound_declare t name value ▸ h.tracks.declare name value, ?_, ?_⟩
  · rw [names_declare, bound_declare, List.eraseDups_append, h.names]
    by_cases hname : name ∈ t.bound
    · simp [hname, List.removeAll]
    · simp [hname, List.removeAll, List.eraseDups_cons]
  · rw [names_declare]
    split
    next => exact h.nodup
    next hname => exact List.nodup_append.mpr ⟨h.nodup, by simp, by grind⟩

theorem Consistent.answer (h : t.Consistent) (c : Call) : (t.answer c).2.Consistent := by
  obtain hc | ⟨_, _, _, -, -, hc⟩ := t.answer_cases c
  · exact hc ▸ h.declare c.entry.name c.entry.value
  · exact hc ▸ h

theorem extends_answer (t : SymbolTable) (c : Call) : t.Extends (t.answer c).2 := by
  obtain hc | ⟨_, _, _, -, -, hc⟩ := t.answer_cases c
  · exact hc ▸ t.extends_declare c.entry.name c.entry.value
  · exact hc ▸ .refl t

theorem Consistent.after (h : t.Consistent) (calls : List Call) : (t.after calls).Consistent := by
  induction calls generalizing t with
  | nil => exact h
  | cons c rest ih => exact ih (h.answer c)

theorem extends_after (t : SymbolTable) (calls : List Call) : t.Extends (t.after calls) := by
  induction calls generalizing t with
  | nil => exact .refl t
  | cons c rest ih => exact (t.extends_answer c).trans (ih _)

theorem bindings_after (t : SymbolTable) (calls : List Call) :
    (t.after calls).bindings.toList =
      t.bindings.toList ++ (t.succeeded calls).map fun d => d.1.entry := by
  induction calls generalizing t with
  | nil => simp [succeeded]
  | cons c rest ih =>
    obtain hc | ⟨_, _, _, -, -, hc⟩ := t.answer_cases c
    · simp [succeeded, hc, ih, declare]
    · simp [succeeded, hc, ih]

theorem indices_succeeded (t : SymbolTable) (calls : List Call) :
    (t.succeeded calls).map Prod.snd =
      List.range' t.bindings.size (t.succeeded calls).length := by
  induction calls generalizing t with
  | nil => rfl
  | cons c rest ih =>
    obtain hc | ⟨_, _, _, -, -, hc⟩ := t.answer_cases c
    · simp [succeeded, hc, ih, declare, List.range'_succ]
    · simp [succeeded, hc, ih]

end SymbolTable

namespace Grammar

variable {name : String} {scope : List String}

theorem exists_latest?_ge {j : Nat} (h : scope[j]? = some name) :
    ∃ i, latest? name scope = some i ∧ j ≤ i := by
  induction scope generalizing j with
  | nil => simp at h
  | cons first scope ih =>
    cases j with
    | zero =>
      obtain rfl : first = name := by simpa using h
      cases hlater : latest? first scope <;> simp [latest?, hlater]
    | succ j =>
      obtain ⟨i, hi, hle⟩ := ih (by simpa using h)
      exact ⟨i + 1, by simp [latest?, hi], by omega⟩

theorem latest?_eq_some_iff {i : Nat} :
    latest? name scope = some i ↔ IsGreatest {j | scope[j]? = some name} i := by
  constructor
  · intro h
    refine ⟨getElem?_of_latest? h, fun j hj => ?_⟩
    obtain ⟨k, hk, hle⟩ := exists_latest?_ge hj
    obtain rfl : i = k := Option.some.inj (h.symm.trans hk)
    exact hle
  · rintro ⟨hi, hgreatest⟩
    obtain ⟨k, hk, hle⟩ := exists_latest?_ge hi
    rw [hk, le_antisymm hle (hgreatest (getElem?_of_latest? hk))]

theorem latest?_bind_getElem? (name : String) (bindings : List Binding) :
    (latest? name (bindings.map Binding.name)).bind (bindings[·]?) =
      (bindings.filter fun b => b.name = name).getLast? := by
  induction bindings with
  | nil => rfl
  | cons b bindings ih =>
    rw [List.map_cons, latest?]
    cases hlater : latest? name (bindings.map Binding.name) with
    | some i =>
      rw [hlater, Option.bind_some] at ih
      obtain ⟨b', hb', -⟩ : ∃ b', bindings[i]? = some b' ∧ b'.name = name := by
        simpa [List.getElem?_map] using getElem?_of_latest? hlater
      have hlast : (bindings.filter fun b => b.name = name).getLast? = some b' := by rw [← ih, hb']
      by_cases hb : b.name = name <;> simp [hb, hb', hlast, List.getLast?_cons]
    | none =>
      rw [hlater] at ih
      have hnone : bindings.filter (fun b => decide (b.name = name)) = [] := by
        simpa using ih.symm
      by_cases hb : b.name = name <;> simp [hb, hnone]

end Grammar

namespace SymbolTable

variable {t : SymbolTable}

theorem bound_getElem? (t : SymbolTable) (name : String) (i : Nat) :
    t.bound[i]? = some name ↔ ∃ b, t.resolve i = some b ∧ b.name = name := by
  simp [bound, resolve]

theorem mem_bound (t : SymbolTable) (name : String) :
    name ∈ t.bound ↔ ∃ b ∈ t.bindings, b.name = name := by
  simp [bound]

namespace Consistent

theorem lookup_eq_some_iff (h : t.Consistent) (name : String) (i : Nat) :
    t.lookup name = some i ↔ IsGreatest {j | ∃ b, t.resolve j = some b ∧ b.name = name} i := by
  simp only [h.tracks.latest, Grammar.latest?_eq_some_iff, bound_getElem?]

theorem contains_eq_false_iff (h : t.Consistent) (name : String) :
    t.contains name = false ↔ ∀ b ∈ t.bindings, b.name ≠ name := by
  simp [← Bool.not_eq_true, h.tracks.contains, mem_bound]

theorem lookup_eq_none_iff (h : t.Consistent) (name : String) :
    t.lookup name = none ↔ ∀ b ∈ t.bindings, b.name ≠ name := by
  rw [← h.contains_eq_false_iff, contains, Option.isSome_eq_false_iff, Option.isNone_iff_eq_none]

theorem mem_names (h : t.Consistent) (name : String) :
    name ∈ t.names ↔ ∃ b ∈ t.bindings, b.name = name := by
  rw [h.names, List.mem_eraseDups, mem_bound]

theorem current (h : t.Consistent) (name : String) :
    t.current name = (t.bindings.toList.filter fun b => b.name = name).getLast? := by
  rw [SymbolTable.current, h.tracks.latest, bound, ← Grammar.latest?_bind_getElem?]
  exact congrArg _ (funext fun i => Array.getElem?_toList.symm)

theorem assign_fails_iff (h : t.Consistent) (name : String) (value : Expr) (line : Nat) :
    (∃ e, (t.answer (.assign name value line)).1 = .error e) ↔
      ∀ b ∈ t.bindings, b.name ≠ name := by
  rw [← h.contains_eq_false_iff]
  cases hname : t.contains name <;> simp [SymbolTable.answer, assign, hname]

end Consistent

/-- A call that fails assigns to a name that is not declared, and changes nothing. -/
theorem of_answer_error {c : Call} {e : SyntaxError} (h : (t.answer c).1 = .error e) :
    (∃ name value line, c = .assign name value line ∧ e = .undeclared name line) ∧
      (t.answer c).2 = t := by
  obtain hc | ⟨name, value, line, rfl, -, hc⟩ := t.answer_cases c
  · rw [hc] at h
    cases h
  · rw [hc] at h ⊢
    cases h
    exact ⟨⟨name, value, line, rfl, rfl⟩, rfl⟩

/-- An index that a call returns keeps leading to the entry of the call. -/
theorem resolve_of_mem_succeeded {calls : List Call} {c : Call} {i : Nat}
    (h : (c, i) ∈ t.succeeded calls) : (t.after calls).resolve i = some c.entry := by
  induction calls generalizing t with
  | nil => cases h
  | cons first rest ih =>
    obtain hc | ⟨_, _, _, -, -, hc⟩ := t.answer_cases first
    · simp only [succeeded, hc, List.mem_cons] at h
      obtain h | h := h
      · cases h
        rw [after_cons, hc]
        exact (extends_after _ rest).resolve (by simp [declare, resolve])
      · rw [after_cons, hc]
        exact ih h
    · simp only [succeeded, hc] at h
      rw [after_cons, hc]
      exact ih h

/-- The table behind any calls: its entries are those of the calls that succeeded, and where its
names point and stand is read off the entries. -/
theorem history_of_calls (calls : List Call) :
    let t := empty.after calls
    let done := empty.succeeded calls
    t.bindings.toList = done.map (·.1.entry) ∧ done.map (·.2) = List.range t.bindings.size ∧
      (∀ name i, t.lookup name = some i ↔
        IsGreatest {j | ∃ b, t.resolve j = some b ∧ b.name = name} i) ∧
      (∀ name, t.lookup name = none ↔ ∀ b ∈ t.bindings, b.name ≠ name) ∧
      t.names.Nodup ∧ (∀ name, name ∈ t.names ↔ ∃ b ∈ t.bindings, b.name = name) ∧
      t.names = (t.bindings.toList.map Binding.name).eraseDups ∧ t.size = t.names.length ∧
      (∀ name, t.current name =
        (done.filter fun d => d.1.entry.name = name).getLast?.map (·.1.entry)) ∧
      (∀ c i, (c, i) ∈ done → ∀ later, (t.after later).resolve i = some c.entry) ∧
      (∀ name value line, (∃ e, (t.answer (.assign name value line)).1 = .error e) ↔
        ∀ b ∈ t.bindings, b.name ≠ name) ∧
      ∀ c e, (t.answer c).1 = .error e →
        (∃ name value line, c = .assign name value line ∧ e = .undeclared name line) ∧
          (t.answer c).2 = t := by
  intro t done
  have h : t.Consistent := consistent_empty.after calls
  have hbindings : t.bindings.toList = done.map (·.1.entry) := bindings_after empty calls
  refine ⟨hbindings, ?_, h.lookup_eq_some_iff, h.lookup_eq_none_iff, h.nodup, h.mem_names, h.names,
    (List.length_map _).symm, fun name => ?_, fun c i hdone later => ?_, h.assign_fails_iff,
    fun c e => of_answer_error⟩
  · rw [← Array.length_toList, hbindings, List.length_map, List.range_eq_range']
    exact indices_succeeded empty calls
  · rw [h.current, hbindings, List.filter_map, List.getLast?_map]
    rfl
  · exact (extends_after t later).resolve (resolve_of_mem_succeeded hdone)

end SymbolTable

end TinyCompiler
