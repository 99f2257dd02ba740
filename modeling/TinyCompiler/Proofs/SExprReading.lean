import Mathlib.Data.List.Basic
import TinyCompiler.Syntax.Display

/-! S-expressions can be read back. In front of a delimiter or the end, a text begins with at most
one of them, as long as no atom has a delimiter in it. -/
namespace TinyCompiler.SExpr

def delimiters : List Char := [' ', '\n', '(', ')']

/-- The text ends or goes on with a delimiter. -/
def Ends (rest : List Char) : Prop := ∀ c ∈ rest.head?, c ∈ delimiters

def Word (text : String) : Prop := text.toList ≠ [] ∧ ∀ c ∈ text.toList, c ∉ delimiters

mutual

/-- Every atom is a word and every list has an item. -/
def Clean : SExpr → Prop
  | atom text => Word text
  | list items => items ≠ [] ∧ CleanAll items

def CleanAll : List SExpr → Prop
  | [] => True
  | e :: rest => e.Clean ∧ CleanAll rest

end

/-- Expressions in a row, each behind a separator. -/
def sequel (separator : Char) : List SExpr → List Char → List Char
  | [], rest => rest
  | e :: es, rest => separator :: (e.render.toList ++ sequel separator es rest)

variable {separator : Char} {rest rest' : List Char}

theorem sequel_append (es : List SExpr) (rest : List Char) :
    sequel separator es [] ++ rest = sequel separator es rest := by
  induction es with
  | nil => rfl
  | cons e es ih => rw [sequel, sequel, List.cons_append, List.append_assoc, ih]

theorem toList_intercalate (separator : Char) (e : SExpr) (es : List SExpr) :
    ((String.singleton separator).intercalate (renderAll (e :: es))).toList =
      e.render.toList ++ sequel separator es [] := by
  induction es generalizing e with
  | nil => simp [renderAll, sequel]
  | cons next es ih =>
    rw [renderAll, renderAll, String.intercalate_cons_cons, ← renderAll, String.toList_append,
      String.toList_append, ih]
    simp [sequel]

theorem toList_render_list (e : SExpr) (es : List SExpr) (rest : List Char) :
    (list (e :: es)).render.toList ++ rest =
      '(' :: (e.render.toList ++ sequel ' ' es (')' :: rest)) := by
  have hspace : " " = String.singleton ' ' := rfl
  have hlist : (list (e :: es)).render.toList =
      '(' :: (e.render.toList ++ sequel ' ' es []) ++ [')'] := by
    rw [render, hspace, String.toList_append, String.toList_append, toList_intercalate]
    rfl
  rw [hlist, ← sequel_append es (')' :: rest)]
  simp

theorem ends_sequel (hs : separator ∈ delimiters) (hrest : Ends rest) (es : List SExpr) :
    Ends (sequel separator es rest) := by
  cases es with
  | nil => exact hrest
  | cons e es =>
    rintro c ⟨⟩
    exact hs

/-- A word reaches up to the delimiter behind it. -/
theorem word_append_injective {w w' : List Char} (hw : ∀ c ∈ w, c ∉ delimiters)
    (hw' : ∀ c ∈ w', c ∉ delimiters) (hrest : Ends rest) (hrest' : Ends rest')
    (h : w ++ rest = w' ++ rest') : w = w' ∧ rest = rest' := by
  induction w generalizing w' with
  | nil =>
    cases w' with
    | nil => exact ⟨rfl, h⟩
    | cons c w' =>
      rw [List.nil_append] at h
      exact absurd (hrest c (by rw [h]; rfl)) (hw' c List.mem_cons_self)
  | cons c w ih =>
    obtain ⟨hc, hw⟩ := List.forall_mem_cons.mp hw
    cases w' with
    | nil =>
      rw [List.nil_append] at h
      exact absurd (hrest' c (by rw [← h]; rfl)) hc
    | cons c' w' =>
      obtain ⟨rfl, hmore⟩ := List.cons.inj h
      obtain ⟨rfl, hrest⟩ := ih hw (List.forall_mem_cons.mp hw').2 hmore
      exact ⟨rfl, hrest⟩

theorem word_ne_list {text : String} (h : Word text) {more : List Char} :
    text.toList ++ rest ≠ '(' :: more := by
  obtain ⟨c, w, hw⟩ := List.exists_cons_of_ne_nil h.1
  intro he
  rw [hw] at he
  obtain ⟨rfl, -⟩ := List.cons.inj he
  exact h.2 '(' (by simp [hw]) (by decide)

mutual

/-- The text determines the expression and where it ends. -/
theorem render_append_injective : (e e' : SExpr) → e.Clean → e'.Clean → {rest rest' : List Char} →
    Ends rest → Ends rest' → e.render.toList ++ rest = e'.render.toList ++ rest' →
      e = e' ∧ rest = rest'
  | atom text, atom text', he, he', _, _, hrest, hrest', h => by
    obtain ⟨htext, hmore⟩ := word_append_injective he.2 he'.2 hrest hrest' h
    exact ⟨congrArg atom (String.toList_inj.mp htext), hmore⟩
  | atom text, list (e' :: es'), he, _, _, _, _, _, h => by
    rw [toList_render_list] at h
    exact absurd h (word_ne_list he)
  | list (e :: es), atom text', _, he', _, _, _, _, h => by
    rw [toList_render_list] at h
    exact absurd h.symm (word_ne_list he')
  | list (e :: es), list (e' :: es'), ⟨_, he, hes⟩, ⟨_, he', hes'⟩, rest, rest', _, _, h => by
    rw [toList_render_list, toList_render_list] at h
    -- What stands behind the items is the parenthesis that closes them, never a separator.
    have hclose (more : List Char) : Ends (')' :: more) := by
      rintro c ⟨⟩
      decide
    obtain ⟨rfl, hmore⟩ := render_append_injective e e' he he'
      (ends_sequel (by decide) (hclose rest) es) (ends_sequel (by decide) (hclose rest') es')
      (List.cons.inj h).2
    obtain ⟨rfl, hrest⟩ := sequel_injective es es' hes hes' (by decide) (by simp) (by simp)
      (hclose rest) (hclose rest') hmore
    exact ⟨rfl, (List.cons.inj hrest).2⟩
  | list [], _, ⟨hne, _⟩, _, _, _, _, _, _ => absurd rfl hne
  | _, list [], _, ⟨hne, _⟩, _, _, _, _, _ => absurd rfl hne

theorem sequel_injective : (es es' : List SExpr) → CleanAll es → CleanAll es' →
    {separator : Char} → {rest rest' : List Char} → separator ∈ delimiters →
      rest.head? ≠ some separator → rest'.head? ≠ some separator → Ends rest → Ends rest' →
        sequel separator es rest = sequel separator es' rest' → es = es' ∧ rest = rest'
  | [], [], _, _, _, _, _, _, _, _, _, _, h => ⟨rfl, h⟩
  | [], e' :: es', _, _, _, _, _, _, hno, _, _, _, h => absurd (congrArg List.head? h) hno
  | e :: es, [], _, _, _, _, _, _, _, hno', _, _, h => absurd (congrArg List.head? h).symm hno'
  | e :: es, e' :: es', ⟨he, hes⟩, ⟨he', hes'⟩, _, _, _, hs, hno, hno', hrest, hrest', h => by
    obtain ⟨rfl, hmore⟩ := render_append_injective e e' he he' (ends_sequel hs hrest es)
      (ends_sequel hs hrest' es') (List.cons.inj h).2
    obtain ⟨rfl, hmore'⟩ := sequel_injective es es' hes hes' hs hno hno' hrest hrest' hmore
    exact ⟨rfl, hmore'⟩

end

theorem Clean.render_ne_nil {e : SExpr} (h : e.Clean) : e.render.toList ≠ [] := by
  cases e with
  | atom text => exact h.1
  | list items =>
    obtain ⟨e, es, rfl⟩ := List.exists_cons_of_ne_nil h.1
    have htext := toList_render_list e es []
    rw [List.append_nil] at htext
    rw [htext]
    exact List.cons_ne_nil _ _

/-- Expressions on lines of their own are determined by the text of all lines. -/
theorem lines_injective {es es' : List SExpr} (h : CleanAll es) (h' : CleanAll es')
    (htext : "\n".intercalate (renderAll es) = "\n".intercalate (renderAll es')) : es = es' := by
  have hline : "\n" = String.singleton '\n' := rfl
  have hempty : ("\n".intercalate (renderAll [])).toList = [] := rfl
  have hend : Ends [] := by simp [Ends]
  have hlist := congrArg String.toList htext
  cases es with
  | nil =>
    cases es' with
    | nil => rfl
    | cons e' es' =>
      rw [hempty, hline, toList_intercalate] at hlist
      exact absurd (List.append_eq_nil_iff.mp hlist.symm).1 h'.1.render_ne_nil
  | cons e es =>
    cases es' with
    | nil =>
      rw [hempty, hline, toList_intercalate] at hlist
      exact absurd (List.append_eq_nil_iff.mp hlist).1 h.1.render_ne_nil
    | cons e' es' =>
      rw [hline, toList_intercalate, toList_intercalate] at hlist
      obtain ⟨rfl, hmore⟩ := render_append_injective e e' h.1 h'.1
        (ends_sequel (by decide) hend es) (ends_sequel (by decide) hend es') hlist
      obtain ⟨rfl, -⟩ := sequel_injective es es' h.2 h'.2 (by decide) (by simp) (by simp) hend hend
        hmore
      rfl

end TinyCompiler.SExpr
