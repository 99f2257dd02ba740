import Mathlib.Data.List.Basic
import TinyCompiler.Proofs.Numeral
import TinyCompiler.Text.Json

/-! JSON text can be read back. In front of anything but a digit, a text begins with at most one
value of a level. Compact and pretty text are two fillings of one description, which says what the
blanks between the items are and no more than that. -/
namespace TinyCompiler.Json

/-- Nothing that a numeral could go on with. -/
def Ends (rest : List Char) : Prop := ∀ c ∈ rest.head?, c ≠ '-' ∧ c.isDigit = false

/-- The text tells the value and where it ends. -/
def Determines {α : Type} (text : α → String) (a : α) : Prop :=
  ∀ a' rest rest', Ends rest → Ends rest' →
    (text a).toList ++ rest = (text a').toList ++ rest' → a = a' ∧ rest = rest'

theorem ends_cons {c : Char} (h : c ≠ '-' ∧ c.isDigit = false) (rest : List Char) :
    Ends (c :: rest) := by
  rintro _ ⟨⟩
  exact h

theorem determines_ofInt (n : Int) : Determines Decimal.ofInt n := by
  let p (c : Char) : Bool := c = '-' || c.isDigit
  have htake (m : Int) {rest : List Char} (hrest : Ends rest) :
      ((Decimal.ofInt m).toList ++ rest).takeWhile p = (Decimal.ofInt m).toList := by
    have hno : rest.takeWhile p = [] := by
      cases rest with
      | nil => rfl
      | cons c rest => simp [p, hrest c rfl]
    rw [List.takeWhile_append_of_pos, hno, List.append_nil]
    intro c hc
    simpa [p] using Decimal.mem_ofInt hc
  intro m rest rest' hrest hrest' h
  have htext := congrArg (List.takeWhile p) h
  rw [htake n hrest, htake m hrest'] at htext
  have hread := congrArg Decimal.signed? htext
  rw [Decimal.signed?_ofInt, Decimal.signed?_ofInt] at hread
  rw [htext] at h
  exact ⟨Option.some.inj hread, List.append_cancel_left h⟩

def hexValue (c : Char) : Nat := if c.isDigit then c.toNat - '0'.toNat else c.toNat - 'a'.toNat + 10

def unletter : Char → Char
  | 'b' => '\x08'
  | 't' => '\t'
  | 'n' => '\n'
  | 'f' => '\x0c'
  | 'r' => '\r'
  | c => c

/-- Reads one character inside quotes, and nothing at the closing quote. -/
def unescape? : List Char → Option (Char × List Char)
  | '\\' :: 'u' :: _ :: _ :: high :: low :: rest =>
    some (Char.ofNat (16 * hexValue high + hexValue low), rest)
  | '\\' :: c :: rest => some (unletter c, rest)
  | '"' :: _ | [] => none
  | c :: rest => some (c, rest)

theorem hexValue_hexDigit (n : Nat) : hexValue (hexDigit n) = n % 16 := by
  have h : ∀ k < 16, hexValue (Nat.digitChar k) = k := by decide
  exact h (n % 16) (Nat.mod_lt n (by decide))

theorem unescape?_escape (c : Char) (rest : List Char) :
    unescape? (escape c ++ rest) = some (c, rest) := by
  unfold escape
  split_ifs with hquote hback h h h h h hcontrol
  · subst hquote; rfl
  · subst hback; rfl
  · subst h; rfl
  · subst h; rfl
  · subst h; rfl
  · subst h; rfl
  · subst h; rfl
  · have hlt : c.toNat < 32 := hcontrol
    simp only [List.cons_append, List.nil_append, unescape?, hexValue_hexDigit]
    rw [show 16 * (c.toNat / 16 % 16) + c.toNat % 16 = c.toNat by omega, Char.ofNat_toNat]
  · rw [List.singleton_append, unescape?]
    all_goals simp [hquote, hback]

theorem flatMap_escape_injective (cs cs' : List Char) {rest rest' : List Char}
    (h : cs.flatMap escape ++ '"' :: rest = cs'.flatMap escape ++ '"' :: rest') :
    cs = cs' ∧ rest = rest' := by
  have hread := congrArg unescape? h
  induction cs generalizing cs' with
  | nil =>
    cases cs' with
    | nil => exact ⟨rfl, (List.cons.inj h).2⟩
    | cons c' cs' =>
      rw [List.flatMap_cons, List.append_assoc, unescape?_escape] at hread
      cases hread
  | cons c cs ih =>
    rw [List.flatMap_cons, List.append_assoc, unescape?_escape] at hread
    cases cs' with
    | nil => cases hread
    | cons c' cs' =>
      rw [List.flatMap_cons, List.append_assoc, unescape?_escape] at hread
      obtain ⟨rfl, hmore⟩ := Prod.mk.inj (Option.some.inj hread)
      obtain ⟨rfl, hrest⟩ := ih cs' hmore (congrArg unescape? hmore)
      exact ⟨rfl, hrest⟩

theorem toList_quote (s : String) (rest : List Char) :
    (quote s).toList ++ rest = '"' :: (s.toList.flatMap escape ++ '"' :: rest) := by
  simp [quote]

theorem quote_append_injective {s s' : String} {rest rest' : List Char}
    (h : (quote s).toList ++ rest = (quote s').toList ++ rest') : s = s' ∧ rest = rest' := by
  rw [toList_quote, toList_quote] at h
  obtain ⟨hs, hrest⟩ := flatMap_escape_injective _ _ (List.cons.inj h).2
  exact ⟨String.toList_inj.mp hs, hrest⟩

/-- Items one level in, each behind the blanks of their level; without items the brackets touch. -/
def enclosed (opening closing : Char) (gap : Nat → String) (level : Nat) (texts : List String) :
    String :=
  if texts.isEmpty then String.ofList [opening, closing]
  else String.singleton opening ++ gap (level + 1) ++
    ("," ++ gap (level + 1)).intercalate texts ++ gap level ++ String.singleton closing

/-- What stands behind the first item: the others, each behind a comma. -/
def sequel (gap : List Char) : List String → List Char → List Char
  | [], rest => rest
  | text :: texts, rest => ',' :: (gap ++ (text.toList ++ sequel gap texts rest))

theorem toList_intercalate (gap text : String) (texts : List String) (rest : List Char) :
    (("," ++ gap).intercalate (text :: texts)).toList ++ rest =
      text.toList ++ sequel gap.toList texts rest := by
  induction texts generalizing text with
  | nil => simp [sequel]
  | cons next texts ih =>
    rw [String.intercalate_cons_cons, String.toList_append, String.toList_append, List.append_assoc,
      ih]
    simp [sequel]

theorem toList_enclosed_nil (opening closing : Char) (gap : Nat → String) (level : Nat)
    (rest : List Char) :
    (enclosed opening closing gap level []).toList ++ rest = opening :: closing :: rest := by
  simp [enclosed]

theorem toList_enclosed_cons (opening closing : Char) (gap : Nat → String) (level : Nat)
    (text : String) (texts : List String) (rest : List Char) :
    (enclosed opening closing gap level (text :: texts)).toList ++ rest =
      opening :: ((gap (level + 1)).toList ++ (text.toList ++
        sequel (gap (level + 1)).toList texts ((gap level).toList ++ closing :: rest))) := by
  simp only [enclosed, List.isEmpty_cons, Bool.false_eq_true, if_false, String.toList_append,
    List.append_assoc]
  rw [toList_intercalate]
  simp

def Blank (text : String) : Prop := ∀ c ∈ text.toList, c = ' ' ∨ c = '\n'

theorem Blank.head {text : String} (h : Blank text) {closing : Char} {rest : List Char} {c : Char}
    (hc : c ∈ (text.toList ++ closing :: rest).head?) : c = ' ' ∨ c = '\n' ∨ c = closing := by
  cases htext : text.toList with
  | nil =>
    rw [htext] at hc
    cases hc
    exact .inr (.inr rfl)
  | cons first more =>
    rw [htext] at hc
    cases hc
    exact (h c (by rw [htext]; exact List.mem_cons_self)).imp_right .inl

def Closes (closing : Char) : Prop := closing = ']' ∨ closing = '}'

variable {α : Type} {text : α → String} {gap : String} {closing : Char} {rest rest' : List Char}

theorem ends_closing (hgap : Blank gap) (hclosing : Closes closing) :
    Ends (gap.toList ++ closing :: rest) := by
  intro c hc
  obtain rfl | rfl := hclosing
  all_goals
    obtain rfl | rfl | rfl := hgap.head hc <;> decide

theorem closing_ne_comma (hgap : Blank gap) (hclosing : Closes closing) :
    (gap.toList ++ closing :: rest).head? ≠ some ',' := by
  intro hc
  obtain rfl | rfl := hclosing
  all_goals
    obtain h | h | h := hgap.head hc <;> revert h <;> decide

theorem ends_sequel {gap : List Char} (hrest : Ends rest) (texts : List String) :
    Ends (sequel gap texts rest) := by
  cases texts with
  | nil => exact hrest
  | cons text texts => exact ends_cons (by decide) _

theorem sequel_injective {gap : List Char} {items items' : List α}
    (h : ∀ a ∈ items, Determines text a) (hrest : Ends rest) (hrest' : Ends rest')
    (hno : rest.head? ≠ some ',') (hno' : rest'.head? ≠ some ',')
    (he : sequel gap (items.map text) rest = sequel gap (items'.map text) rest') :
    items = items' ∧ rest = rest' := by
  induction items generalizing items' with
  | nil =>
    cases items' with
    | nil => exact ⟨rfl, he⟩
    | cons a' items' => exact absurd (congrArg List.head? he) hno
  | cons a items ih =>
    obtain ⟨ha, hitems⟩ := List.forall_mem_cons.mp h
    cases items' with
    | nil => exact absurd (congrArg List.head? he).symm hno'
    | cons a' items' =>
      obtain ⟨rfl, hmore⟩ := ha a' _ _ (ends_sequel hrest _) (ends_sequel hrest' _)
        (List.append_cancel_left (List.cons.inj he).2)
      obtain ⟨rfl, hmore'⟩ := ih hitems hmore
      exact ⟨rfl, hmore'⟩

/-- Brackets tell their items, if the items are told by their texts and none begins like a closing
bracket. -/
theorem enclosed_injective {opening : Char} {gap : Nat → String} {level : Nat}
    {items items' : List α} (hgap : ∀ level, Blank (gap level)) (hclosing : Closes closing)
    (hstart : ∀ a, ∃ c more, (text a).toList = c :: more ∧ ¬Closes c)
    (h : ∀ a ∈ items, Determines text a)
    (he : (enclosed opening closing gap level (items.map text)).toList ++ rest =
      (enclosed opening closing gap level (items'.map text)).toList ++ rest') :
    items = items' ∧ rest = rest' := by
  -- Behind an opening bracket stand blanks or the first item, but no closing bracket.
  have hitem (a : α) (rest more : List Char) :
      closing :: rest ≠ (gap (level + 1)).toList ++ ((text a).toList ++ more) := by
    obtain ⟨c, cs, htext, hc⟩ := hstart a
    intro hcontra
    rw [htext, List.cons_append] at hcontra
    obtain rfl | rfl | rfl := (hgap (level + 1)).head (c := closing) (by rw [← hcontra]; rfl)
    · exact absurd hclosing (by unfold Closes; decide)
    · exact absurd hclosing (by unfold Closes; decide)
    · exact hc hclosing
  cases items with
  | nil =>
    cases items' with
    | nil =>
      rw [List.map_nil, toList_enclosed_nil, toList_enclosed_nil] at he
      exact ⟨rfl, (List.cons.inj (List.cons.inj he).2).2⟩
    | cons a' items' =>
      rw [List.map_nil, List.map_cons, toList_enclosed_nil, toList_enclosed_cons] at he
      exact absurd (List.cons.inj he).2 (hitem a' rest _)
  | cons a items =>
    obtain ⟨ha, hitems⟩ := List.forall_mem_cons.mp h
    cases items' with
    | nil =>
      rw [List.map_nil, List.map_cons, toList_enclosed_nil, toList_enclosed_cons] at he
      exact absurd (List.cons.inj he).2.symm (hitem a rest' _)
    | cons a' items' =>
      rw [List.map_cons, List.map_cons, toList_enclosed_cons, toList_enclosed_cons] at he
      have hends (rest : List Char) : Ends ((gap level).toList ++ closing :: rest) :=
        ends_closing (hgap level) hclosing
      obtain ⟨rfl, hmore⟩ := ha a' _ _ (ends_sequel (hends rest) _) (ends_sequel (hends rest') _)
        (List.append_cancel_left (List.cons.inj he).2)
      obtain ⟨rfl, hclose⟩ := sequel_injective hitems (hends rest) (hends rest')
        (closing_ne_comma (hgap level) hclosing) (closing_ne_comma (hgap level) hclosing) hmore
      exact ⟨rfl, (List.cons.inj (List.append_cancel_left hclose)).2⟩

/-- A way to write values: a value of some level, with blanks in front of the items of a level, and
behind the colon of a member. -/
structure Style (text : Nat → Json → String) (gap : Nat → String) (pad : String) : Prop where
  blank : ∀ level, Blank (gap level)
  null : ∀ level, text level null = "null"
  boolean : ∀ level value, text level (boolean value) = if value then "true" else "false"
  integer : ∀ level value, text level (integer value) = Decimal.ofInt value
  string : ∀ level value, text level (string value) = quote value
  array : ∀ level items,
    text level (array items) = enclosed '[' ']' gap level (items.map (text (level + 1)))
  object : ∀ level members, text level (object members) =
    enclosed '\x7b' '\x7d' gap level
      (members.map fun m => quote m.1 ++ (":" ++ pad) ++ text (level + 1) m.2)

inductive Form where
  | null | boolean | integer | string | array | object
  deriving DecidableEq

def form : Json → Form
  | null => .null
  | boolean _ => .boolean
  | integer _ => .integer
  | string _ => .string
  | array _ => .array
  | object _ => .object

def formOf? (c : Char) : Option Form :=
  if c = 'n' then some .null
  else if c = 't' ∨ c = 'f' then some .boolean
  else if c = '"' then some .string
  else if c = '[' then some .array
  else if c = '\x7b' then some .object
  else if c = '-' ∨ c.isDigit then some .integer
  else none

theorem formOf?_ofInt {c : Char} {n : Int} (h : c ∈ (Decimal.ofInt n).toList) :
    formOf? c = some .integer := by
  obtain rfl | hdigit := Decimal.mem_ofInt h
  · rfl
  · have hne (other : Char) (hother : other.isDigit = false) : c ≠ other := by
      rintro rfl
      simp [hother] at hdigit
    simp [formOf?, hdigit, hne 'n' rfl, hne 't' rfl, hne 'f' rfl, hne '"' rfl, hne '[' rfl,
      hne '\x7b' rfl]

namespace Style

variable {text : Nat → Json → String} {gap : Nat → String} {pad : String}

theorem exists_head (h : Style text gap pad) (level : Nat) (v : Json) :
    ∃ c more, (text level v).toList = c :: more ∧ formOf? c = some v.form := by
  have henclosed (opening closing : Char) (texts : List String) :
      ∃ more, (enclosed opening closing gap level texts).toList = opening :: more := by
    rw [← List.append_nil (enclosed opening closing gap level texts).toList]
    cases texts with
    | nil => exact ⟨_, toList_enclosed_nil ..⟩
    | cons text texts => exact ⟨_, toList_enclosed_cons ..⟩
  cases v with
  | null => exact ⟨'n', _, by rw [h.null]; rfl, rfl⟩
  | boolean value =>
    cases value
    · exact ⟨'f', _, by rw [h.boolean]; rfl, rfl⟩
    · exact ⟨'t', _, by rw [h.boolean]; rfl, rfl⟩
  | integer value =>
    rw [h.integer]
    cases htext : (Decimal.ofInt value).toList with
    | nil =>
      have hread := Decimal.signed?_ofInt value
      rw [htext] at hread
      cases hread
    | cons c more => exact ⟨c, more, rfl, formOf?_ofInt (by rw [htext]; exact List.mem_cons_self)⟩
  | string value => exact ⟨'"', _, by rw [h.string, ← List.append_nil (quote value).toList,
      toList_quote], rfl⟩
  | array items =>
    obtain ⟨more, hmore⟩ := henclosed '[' ']' (items.map (text (level + 1)))
    exact ⟨'[', more, by rw [h.array, hmore], rfl⟩
  | object members =>
    obtain ⟨more, hmore⟩ := henclosed '\x7b' '\x7d'
      (members.map fun m => quote m.1 ++ (":" ++ pad) ++ text (level + 1) m.2)
    exact ⟨'\x7b', more, by rw [h.object, hmore], rfl⟩

theorem form_eq (h : Style text gap pad) {level : Nat} {v v' : Json}
    (he : (text level v).toList ++ rest = (text level v').toList ++ rest') : v.form = v'.form := by
  obtain ⟨c, more, htext, hc⟩ := h.exists_head level v
  obtain ⟨c', more', htext', hc'⟩ := h.exists_head level v'
  rw [htext, htext'] at he
  obtain rfl := (List.cons.inj he).1
  exact Option.some.inj (hc.symm.trans hc')

theorem starts (h : Style text gap pad) (level : Nat) (v : Json) :
    ∃ c more, (text level v).toList = c :: more ∧ ¬Closes c := by
  obtain ⟨c, more, htext, hc⟩ := h.exists_head level v
  refine ⟨c, more, htext, ?_⟩
  rintro (rfl | rfl) <;> cases hc

theorem determines_member {key : String} {v : Json} {level : Nat} (h : Determines (text level) v) :
    Determines (fun m => quote m.1 ++ (":" ++ pad) ++ text level m.2) (key, v) := by
  rintro ⟨key', v'⟩ rest rest' hrest hrest' he
  simp only [String.toList_append, List.append_assoc] at he
  obtain ⟨rfl, hmore⟩ := quote_append_injective he
  obtain ⟨rfl, hend⟩ := h v' rest rest' hrest hrest'
    (List.append_cancel_left (List.append_cancel_left hmore))
  exact ⟨rfl, hend⟩

mutual

theorem determines (h : Style text gap pad) : (level : Nat) → (v : Json) →
    Determines (text level) v
  | level, .null, v', rest, rest', _, _, he => by
    have hform := h.form_eq he
    cases v' with
    | null => exact ⟨rfl, List.append_cancel_left he⟩
    | boolean | integer | string | array | object => cases hform
  | level, .boolean value, v', rest, rest', _, _, he => by
    have hform := h.form_eq he
    cases v' with
    | boolean value' =>
      rw [h.boolean, h.boolean] at he
      cases value <;> cases value' <;> simp_all
    | null | integer | string | array | object => cases hform
  | level, .integer value, v', rest, rest', hrest, hrest', he => by
    have hform := h.form_eq he
    cases v' with
    | integer value' =>
      rw [h.integer, h.integer] at he
      obtain ⟨rfl, hmore⟩ := determines_ofInt value value' rest rest' hrest hrest' he
      exact ⟨rfl, hmore⟩
    | null | boolean | string | array | object => cases hform
  | level, .string value, v', rest, rest', _, _, he => by
    have hform := h.form_eq he
    cases v' with
    | string value' =>
      rw [h.string, h.string] at he
      obtain ⟨rfl, hmore⟩ := quote_append_injective he
      exact ⟨rfl, hmore⟩
    | null | boolean | integer | array | object => cases hform
  | level, .array items, v', rest, rest', _, _, he => by
    have hform := h.form_eq he
    cases v' with
    | array items' =>
      rw [h.array, h.array] at he
      obtain ⟨rfl, hmore⟩ := enclosed_injective h.blank (.inl rfl) (h.starts (level + 1))
        (determinesItems h (level + 1) items) he
      exact ⟨rfl, hmore⟩
    | null | boolean | integer | string | object => cases hform
  | level, .object members, v', rest, rest', _, _, he => by
    have hform := h.form_eq he
    cases v' with
    | object members' =>
      have hstart (m : String × Json) : ∃ c more,
          (quote m.1 ++ (":" ++ pad) ++ text (level + 1) m.2).toList = c :: more ∧ ¬Closes c := by
        rw [String.toList_append, String.toList_append, List.append_assoc, toList_quote]
        exact ⟨_, _, rfl, by rintro (h | h) <;> revert h <;> decide⟩
      rw [h.object, h.object] at he
      obtain ⟨rfl, hmore⟩ := enclosed_injective h.blank (.inr rfl) hstart
        (determinesMembers h (level + 1) members) he
      exact ⟨rfl, hmore⟩
    | null | boolean | integer | string | array => cases hform

theorem determinesItems (h : Style text gap pad) (level : Nat) : (items : List Json) →
    ∀ v ∈ items, Determines (text level) v
  | [] => by simp
  | v :: items => List.forall_mem_cons.mpr ⟨determines h level v, determinesItems h level items⟩

theorem determinesMembers (h : Style text gap pad) (level : Nat) :
    (members : List (String × Json)) → ∀ m ∈ members,
      Determines (fun m => quote m.1 ++ (":" ++ pad) ++ text level m.2) m
  | [] => by simp
  | (_, v) :: members =>
    List.forall_mem_cons.mpr
      ⟨determines_member (determines h level v), determinesMembers h level members⟩

end

theorem injective (h : Style text gap pad) (level : Nat) : Function.Injective (text level) := by
  intro v v' he
  exact (h.determines level v v' [] [] (by simp [Ends]) (by simp [Ends]) (by rw [he])).1

end Style

theorem compactItems_eq (items : List Json) : compactItems items = items.map compact := by
  induction items with
  | nil => rfl
  | cons v items ih => rw [compactItems, ih, List.map_cons]

theorem compactMembers_eq (members : List (String × Json)) :
    compactMembers members = members.map fun m => quote m.1 ++ ":" ++ m.2.compact := by
  induction members with
  | nil => rfl
  | cons m members ih => rw [compactMembers, ih, List.map_cons]

theorem prettyItems_eq (level : Nat) (items : List Json) :
    prettyItems level items = items.map (prettyAt level) := by
  induction items with
  | nil => rfl
  | cons v items ih => rw [prettyItems, ih, List.map_cons]

theorem prettyMembers_eq (level : Nat) (members : List (String × Json)) :
    prettyMembers level members =
      members.map fun m => quote m.1 ++ ": " ++ m.2.prettyAt level := by
  induction members with
  | nil => rfl
  | cons m members ih => rw [prettyMembers, ih, List.map_cons]

theorem style_compact : Style (fun _ => compact) (fun _ => "") "" where
  blank := by simp [Blank]
  null _ := by rw [compact]
  boolean _ value := by cases value <;> rw [compact] <;> rfl
  integer _ _ := by rw [compact]
  string _ _ := by rw [compact]
  array _ items := by
    rw [compact, compactItems_eq]
    cases items <;> simp [enclosed]
  object _ members := by
    rw [compact, compactMembers_eq]
    cases members <;> simp [enclosed]

theorem style_pretty : Style (fun level => prettyAt level) newline " " where
  blank level := by simp [Blank, newline]
  null _ := by rw [prettyAt]
  boolean _ value := by cases value <;> rw [prettyAt] <;> rfl
  integer _ _ := by rw [prettyAt]
  string _ _ := by rw [prettyAt]
  array level items := by
    rw [prettyAt, prettyItems_eq]
    cases items <;> simp [enclosed, bracketed]
  object level members := by
    rw [prettyAt, prettyMembers_eq]
    cases members <;> simp [enclosed, bracketed]

theorem compact_injective : Function.Injective compact := style_compact.injective 0

theorem pretty_injective : Function.Injective pretty := style_pretty.injective 0

end TinyCompiler.Json
