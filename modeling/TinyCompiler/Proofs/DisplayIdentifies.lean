import TinyCompiler.Proofs.LoweringSucceeds
import TinyCompiler.Proofs.PrintedExpression
import TinyCompiler.Proofs.SExprReading
import TinyCompiler.Proofs.ScannedTrees

/-! The display of a program identifies it. The text is read back as S-expressions, the operator and
the number of items tell the node, and a leaf is told by the token that spells it. What the text
leaves out, the indices and the table, follows from the order of the bindings. -/
namespace TinyCompiler

open Grammar SExpr

theorem SExpr.mem_delimiters {c : Char} :
    c ∈ delimiters ↔ c = ' ' ∨ c = '\n' ∨ c = '(' ∨ c = ')' := by
  simp [delimiters]

theorem IsName.word {name : String} (h : IsName name) : Word name := by
  have hbyte {c : Char} (hc : c ∈ delimiters) :
      ∃ b, String.utf8EncodeChar c = [b] ∧ Segment.isWordByte b = false := by
    obtain rfl | rfl | rfl | rfl := mem_delimiters.mp hc <;> exact ⟨_, rfl, by decide⟩
  constructor
  · intro hempty
    have hword := h.1
    rw [Utf8.encode, hempty] at hword
    exact hword
  · intro c hc hdelimiter
    obtain ⟨b, hb, hno⟩ := hbyte hdelimiter
    have hword := h.1.bytes (List.mem_flatMap.mpr ⟨c, hc, by rw [hb]; exact List.mem_cons_self⟩)
    rw [hno] at hword
    cases hword

theorem Decimal.word_ofInt (n : Int) : Word (ofInt n) := by
  constructor
  · intro hempty
    have hread := signed?_ofInt n
    rw [hempty] at hread
    cases hread
  · intro c hc hdelimiter
    have hno : c ≠ '-' ∧ c.isDigit = false := by
      obtain rfl | rfl | rfl | rfl := mem_delimiters.mp hdelimiter <;> decide
    obtain rfl | h := mem_ofInt hc
    · exact hno.1 rfl
    · rw [hno.2] at h
      cases h

theorem SExpr.clean_headed {head : String} {items : List SExpr} (h : Word head)
    (hitems : CleanAll items) : (headed head items).Clean :=
  ⟨List.cons_ne_nil _ _, h, hitems⟩

instance (text : String) : Decidable (Word text) :=
  decidable_of_iff (text.toList ≠ [] ∧ text.toList.all (!delimiters.contains ·) = true)
    (by simp [Word])

theorem Expr.clean_toSExpr : {e : Expr} → e.Printable → e.toSExpr.Clean
  | integer value, _ => Decimal.word_ofInt value.toInt
  | boolean value, _ => by cases value <;> exact show Word _ by decide
  | reference _ _, h => h.word
  | unary op _, h => by
    refine clean_headed ?_ ⟨clean_toSExpr h, trivial⟩
    cases op <;> decide
  | binary op _ _, h => by
    refine clean_headed ?_ ⟨clean_toSExpr h.1, clean_toSExpr h.2, trivial⟩
    cases op <;> decide
  | comparison op _ _, h => by
    refine clean_headed ?_ ⟨clean_toSExpr h.1, clean_toSExpr h.2, trivial⟩
    cases op <;> decide
  | connective op _ _, h => by
    refine clean_headed ?_ ⟨clean_toSExpr h.1, clean_toSExpr h.2, trivial⟩
    cases op <;> decide

namespace Stmt

mutual

theorem clean_toSExpr : {s : Stmt} → s.Printable → s.toSExpr.Clean
  | expr _, h | ret _, h => clean_headed (by decide) ⟨Expr.clean_toSExpr h, trivial⟩
  | declare _ _ _, h | assign _ _ _, h =>
    clean_headed (by decide) ⟨h.1.word, Expr.clean_toSExpr h.2, trivial⟩
  | ifThen _ _, h | loop _ _, h =>
    clean_headed (by decide)
      ⟨Expr.clean_toSExpr h.1, clean_headed (by decide) (clean_blockItems h.2), trivial⟩
  | ifElse _ _ _, h =>
    clean_headed (by decide)
      ⟨Expr.clean_toSExpr h.1, clean_headed (by decide) (clean_blockItems h.2.1),
        clean_headed (by decide)
          ⟨clean_headed (by decide) (clean_blockItems h.2.2), trivial⟩, trivial⟩

theorem clean_blockItems : {b : List Stmt} → PrintableAll b → CleanAll (blockItems b)
  | [], _ => trivial
  | _ :: _, h => ⟨clean_toSExpr h.1, clean_blockItems h.2⟩

end

end Stmt

theorem UnaryOp.symbol_injective : Function.Injective symbol := by
  rintro (_ | _) (_ | _) h <;> first | rfl | exact absurd h (by decide)

namespace Expr

def leafKind? : Expr → Option Kind
  | integer _ => some .integer
  | boolean value => some (if value then .trueWord else .falseWord)
  | reference _ _ => some .identifier
  | unary .. | binary .. | comparison .. | connective .. => none

theorem spells_leaf {e : Expr} {text : String} (h : e.Printable) (he : e.toSExpr = .atom text) :
    ∃ k, e.leafKind? = some k ∧ Segment.Spells (Utf8.encode text) k := by
  cases e with
  | integer value =>
    cases he
    obtain ⟨n, hn⟩ := Int.eq_ofNat_of_zero_le h
    refine ⟨_, rfl, .numeral ?_⟩
    rw [hn]
    exact Decimal.isNumeral_encode_ofInt n
  | boolean value =>
    cases he
    refine ⟨_, rfl, ?_⟩
    have hno : (Token.detached .falseWord "false").Written := .fixed (by decide) (by decide)
    have hyes : (Token.detached .trueWord "true").Written := .fixed (by decide) (by decide)
    cases value
    · exact hno.spells
    · exact hyes.spells
  | reference name binding =>
    cases he
    exact ⟨_, rfl, .identifier h.1 h.2⟩
  | unary | binary | comparison | connective => cases he

/-- A node of two operands, with its symbol. -/
inductive Node : (Expr → Expr → Expr) → String → Prop where
  | binary (op : BinaryOp) : Node (.binary op) op.symbol
  | comparison (op : Comparison) : Node (.comparison op) op.symbol
  | connective (op : Connective) : Node (.connective op) op.symbol

namespace Node

variable {node node' : Expr → Expr → Expr} {symbol : String}

theorem exists_spelled (h : Node node symbol) : ∃ (t : Tier) (k : Kind),
    t.node? k = some node ∧ Segment.Spells (Utf8.encode symbol) k := by
  cases h with
  | binary op => exact ⟨_, _, op.node?_kind, op.written.spells⟩
  | comparison op => exact ⟨_, _, op.node?_kind, op.written.spells⟩
  | connective op => exact ⟨_, _, op.node?_kind, op.written.spells⟩

theorem unique (h : Node node symbol) (h' : Node node' symbol) : node = node' := by
  obtain ⟨t, k, ht, hk⟩ := h.exists_spelled
  obtain ⟨t', k', ht', hk'⟩ := h'.exists_spelled
  rw [← hk.unique hk'] at ht'
  -- The symbol tells the kind of the token, and no kind is an operator of two tiers.
  unfold Tier.node? at ht
  split at ht <;> cases ht <;> cases t' <;> cases ht' <;> rfl

theorem toSExpr_eq (h : Node node symbol) (left right : Expr) :
    (node left right).toSExpr = headed symbol [left.toSExpr, right.toSExpr] := by
  cases h <;> rfl

end Node

variable {t : SymbolTable}

/-- What is to be shown of an expression, by induction. -/
def Identified (t : SymbolTable) (e : Expr) : Prop :=
  ∀ e', e'.Printable → e'.Resolved t → e.toSExpr = e'.toSExpr → e = e'

theorem Node.identified {node : Expr → Expr → Expr} {symbol : String} {left right : Expr}
    (h : Node node symbol) (hl : left.Identified t) (hr : right.Identified t) :
    (node left right).Identified t := by
  intro e' hp hres he
  have hnode {node' : Expr → Expr → Expr} {symbol' : String} {left' right' : Expr}
      (h' : Node node' symbol') (hp : left'.Printable ∧ right'.Printable)
      (hres : left'.Resolved t ∧ right'.Resolved t)
      (he : (node left right).toSExpr = (node' left' right').toSExpr) :
      node left right = node' left' right' := by
    rw [h.toSExpr_eq, h'.toSExpr_eq] at he
    simp only [headed, list.injEq, List.cons.injEq, atom.injEq, and_true] at he
    obtain ⟨rfl, hel, her⟩ := he
    rw [h.unique h', hl left' hp.1 hres.1 hel, hr right' hp.2 hres.2 her]
  cases e' with
  | integer | boolean | reference | unary =>
    rw [h.toSExpr_eq] at he
    simp [toSExpr, headed] at he
  | binary op => exact hnode (.binary op) hp hres he
  | comparison op => exact hnode (.comparison op) hp hres he
  | connective op => exact hnode (.connective op) hp hres he

theorem identified {e : Expr} (hp : e.Printable) (hres : e.Resolved t) : e.Identified t := by
  have hleaf {e e' : Expr} {text : String} (hp : e.Printable) (hp' : e'.Printable)
      (he : e.toSExpr = .atom text) (he' : e'.toSExpr = .atom text) :
      e.leafKind? = e'.leafKind? := by
    obtain ⟨k, hk, hspells⟩ := spells_leaf hp he
    obtain ⟨k', hk', hspells'⟩ := spells_leaf hp' he'
    rw [hk, hk', hspells.unique hspells']
  induction e with
  | integer value =>
    intro e' hp' _ he
    cases e' with
    | integer value' =>
      have hread := congrArg (Decimal.signed? ∘ String.toList) (atom.inj he)
      simp only [Function.comp, Decimal.signed?_ofInt] at hread
      rw [Int64.toInt_inj.mp (Option.some.inj hread)]
    | boolean | reference => exact absurd (hleaf hp hp' rfl he.symm) (by grind [leafKind?])
    | unary | binary | comparison | connective => cases he
  | boolean value =>
    intro e' hp' _ he
    cases e' with
    | boolean value' =>
      have hkind := hleaf hp hp' rfl he.symm
      cases value <;> cases value' <;> first | rfl | cases hkind
    | integer | reference => exact absurd (hleaf hp hp' rfl he.symm) (by grind [leafKind?])
    | unary | binary | comparison | connective => cases he
  | reference name index =>
    intro e' hp' hres' he
    cases e' with
    | reference name' index' =>
      obtain rfl := atom.inj he
      rw [Option.some.inj (hres.symm.trans hres')]
    | integer | boolean => exact absurd (hleaf hp hp' rfl he.symm) (by grind [leafKind?])
    | unary | binary | comparison | connective => cases he
  | unary op operand ih =>
    intro e' hp' hres' he
    cases e' with
    | unary op' operand' =>
      simp only [toSExpr, headed, list.injEq, List.cons.injEq, atom.injEq, and_true] at he
      obtain ⟨hop, hoperand⟩ := he
      rw [UnaryOp.symbol_injective hop, ih hp hres operand' hp' hres' hoperand]
    | integer | boolean | reference => cases he
    | binary | comparison | connective => simp [toSExpr, headed] at he
  | binary op left right ihl ihr =>
    exact (Node.binary op).identified (ihl hp.1 hres.1) (ihr hp.2 hres.2)
  | comparison op left right ihl ihr =>
    exact (Node.comparison op).identified (ihl hp.1 hres.1) (ihr hp.2 hres.2)
  | connective op left right ihl ihr =>
    exact (Node.connective op).identified (ihl hp.1 hres.1) (ihr hp.2 hres.2)

end Expr

namespace Stmt

mutual

/-- Both statements are walked at once, and the table with them. -/
theorem eq_of_toSExpr {t : SymbolTable} : (s s' : Stmt) → s.Printable → s'.Printable →
    s.Traced t → s'.Traced t → s.toSExpr = s'.toSExpr → s = s'
  | expr value, s', hp, hp', ht, ht', h => by
    cases s' with
    | expr value' =>
      simp only [toSExpr, headed, list.injEq, List.cons.injEq, and_true, true_and] at h
      rw [Expr.identified hp ht value' hp' ht' h]
    | declare | assign | ret | ifThen | ifElse | loop => simp [toSExpr, headed] at h
  | declare name value index, s', hp, hp', ht, ht', h => by
    cases s' with
    | declare name' value' index' =>
      simp only [toSExpr, headed, list.injEq, List.cons.injEq, atom.injEq, and_true, true_and] at h
      obtain ⟨rfl, hvalue⟩ := h
      rw [Expr.identified hp.2 ht.1 value' hp'.2 ht'.1 hvalue, ht.2.1, ht'.2.1]
    | expr | assign | ret | ifThen | ifElse | loop => simp [toSExpr, headed] at h
  | assign name value index, s', hp, hp', ht, ht', h => by
    cases s' with
    | assign name' value' index' =>
      simp only [toSExpr, headed, list.injEq, List.cons.injEq, atom.injEq, and_true, true_and] at h
      obtain ⟨rfl, hvalue⟩ := h
      rw [Expr.identified hp.2 ht.1 value' hp'.2 ht'.1 hvalue, ht.2.2.1, ht'.2.2.1]
    | expr | declare | ret | ifThen | ifElse | loop => simp [toSExpr, headed] at h
  | ret value, s', hp, hp', ht, ht', h => by
    cases s' with
    | ret value' =>
      simp only [toSExpr, headed, list.injEq, List.cons.injEq, and_true, true_and] at h
      rw [Expr.identified hp ht value' hp' ht' h]
    | expr | declare | assign | ifThen | ifElse | loop => simp [toSExpr, headed] at h
  | ifThen condition consequent, s', hp, hp', ht, ht', h => by
    cases s' with
    | ifThen condition' consequent' =>
      simp only [toSExpr, headed, list.injEq, List.cons.injEq, and_true, true_and] at h
      rw [Expr.identified hp.1 ht.1 condition' hp'.1 ht'.1 h.1,
        eq_of_blockItems consequent consequent' hp.2 hp'.2 ht.2 ht'.2 h.2]
    | expr | declare | assign | ret | ifElse | loop => simp [toSExpr, headed] at h
  | ifElse condition consequent alternate, s', hp, hp', ht, ht', h => by
    cases s' with
    | ifElse condition' consequent' alternate' =>
      simp only [toSExpr, headed, list.injEq, List.cons.injEq, and_true, true_and] at h
      obtain ⟨hcondition, hconsequent, halternate⟩ := h
      obtain rfl := eq_of_blockItems consequent consequent' hp.2.1 hp'.2.1 ht.2.1 ht'.2.1
        hconsequent
      rw [Expr.identified hp.1 ht.1 condition' hp'.1 ht'.1 hcondition,
        eq_of_blockItems alternate alternate' hp.2.2 hp'.2.2 ht.2.2 ht'.2.2 halternate]
    | expr | declare | assign | ret | ifThen | loop => simp [toSExpr, headed] at h
  | loop condition body, s', hp, hp', ht, ht', h => by
    cases s' with
    | loop condition' body' =>
      simp only [toSExpr, headed, list.injEq, List.cons.injEq, and_true, true_and] at h
      rw [Expr.identified hp.1 ht.1 condition' hp'.1 ht'.1 h.1,
        eq_of_blockItems body body' hp.2 hp'.2 ht.2 ht'.2 h.2]
    | expr | declare | assign | ret | ifThen | ifElse => simp [toSExpr, headed] at h

theorem eq_of_blockItems {t : SymbolTable} : (b b' : List Stmt) → PrintableAll b →
    PrintableAll b' → TracedAll t b → TracedAll t b' → blockItems b = blockItems b' → b = b'
  | [], [], _, _, _, _, _ => rfl
  | [], _ :: _, _, _, _, _, h => nomatch h
  | _ :: _, [], _, _, _, _, h => nomatch h
  | s :: b, s' :: b', hp, hp', ht, ht', h => by
    obtain ⟨hs, hb⟩ := List.cons.inj h
    obtain rfl := eq_of_toSExpr s s' hp.1 hp'.1 ht.1 ht'.1 hs
    rw [eq_of_blockItems b b' hp.2 hp'.2 ht.2 ht'.2 hb]

end

end Stmt

theorem Program.display_eq (p : Program) :
    p.display = "\n".intercalate (renderAll (Stmt.blockItems p.statements)) := by
  have hitems (b : List Stmt) : b.map Stmt.display = renderAll (Stmt.blockItems b) := by
    induction b with
    | nil => rfl
    | cons s b ih => rw [List.map_cons, ih]; rfl
  rw [display, hitems]

/-- Programs that were parsed from sources, under any limits, are equal if they are displayed as the
same text. -/
theorem display_identifies {source source' : String} {limit limit' : Nat}
    {program program' : Program} (h : parseSource source limit = .ok program)
    (h' : parseSource source' limit' = .ok program')
    (hdisplay : program.display = program'.display) : program = program' := by
  obtain ⟨tokens, htokens, hparse⟩ := parseSource_eq_ok.mp h
  obtain ⟨tokens', htokens', hparse'⟩ := parseSource_eq_ok.mp h'
  obtain ⟨htraced, hsymbols⟩ := traced_of_parse hparse
  obtain ⟨htraced', hsymbols'⟩ := traced_of_parse hparse'
  have hprintable := printable_of_parse htokens hparse
  have hprintable' := printable_of_parse htokens' hparse'
  rw [Program.display_eq, Program.display_eq] at hdisplay
  have hitems := lines_injective (Stmt.clean_blockItems hprintable)
    (Stmt.clean_blockItems hprintable') hdisplay
  obtain ⟨statements, symbols⟩ := program
  obtain ⟨statements', symbols'⟩ := program'
  obtain rfl : statements = statements' :=
    Stmt.eq_of_blockItems statements statements' hprintable hprintable' htraced htraced' hitems
  obtain rfl : symbols = symbols' := hsymbols.trans hsymbols'.symm
  rfl

/-- Parentheses, signs, semicolons and blanks that are not displayed make no other program. -/
theorem exists_display_of_declaration : ∃ source source' program program',
    source = "x := -1 - 2 x" ∧ source' = "x := ((-1) - +2); x;" ∧
      parseSource source 3 = .ok program ∧ parseSource source' 9 = .ok program' ∧
      program.display = "(:= x (- (- 1) 2))\n(expr x)" ∧ program'.display = program.display ∧
      program = program' := by
  have h : parseSource "x := -1 - 2 x" 3 = .ok ⟨[.declare "x"
      (.binary .sub (.unary .neg (.integer 1)) (.integer 2)) 0, .expr (.reference "x" 0)],
      ⟨#[⟨"x", .binary .sub (.unary .neg (.integer 1)) (.integer 2)⟩], [("x", 0)]⟩⟩ := by
    decide +kernel
  obtain ⟨program', h', hdisplay⟩ : ∃ program', parseSource "x := ((-1) - +2); x;" 9 =
      .ok program' ∧ program'.display = "(:= x (- (- 1) 2))\n(expr x)" := by
    refine ⟨⟨[.declare "x" (.binary .sub (.unary .neg (.integer 1)) (.integer 2)) 0,
      .expr (.reference "x" 0)],
      ⟨#[⟨"x", .binary .sub (.unary .neg (.integer 1)) (.integer 2)⟩], [("x", 0)]⟩⟩, ?_, ?_⟩
    · decide +kernel
    · decide +kernel
  exact ⟨_, _, _, program', rfl, rfl, h, h', by decide +kernel, hdisplay,
    display_identifies h h' (by rw [hdisplay]; decide +kernel)⟩

end TinyCompiler
