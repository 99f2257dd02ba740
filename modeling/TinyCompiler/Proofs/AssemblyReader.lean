import Mathlib.Data.Bool.AllAny
import Mathlib.Data.List.Forall2
import TinyCompiler.Assembly.Lowering
import TinyCompiler.Proofs.Machine
import TinyCompiler.Proofs.Numeral

/-! Reading assembly text for the machine, line by line, and what the lines of compiled programs
are read as. -/
namespace TinyCompiler

namespace Machine

def mnemonics : List (List Char × Mnemonic) :=
  [("push".toList, .push), ("pop".toList, .pop), ("mov".toList, .mov), ("movzx".toList, .movzx),
    ("add".toList, .add), ("sub".toList, .sub), ("or".toList, .or), ("xor".toList, .xor),
    ("and".toList, .and), ("imul".toList, .imul), ("neg".toList, .neg), ("not".toList, .not),
    ("shl".toList, .shl), ("sar".toList, .sar), ("cqo".toList, .cqo), ("idiv".toList, .idiv),
    ("cmp".toList, .cmp), ("sete".toList, .set .equal), ("setne".toList, .set .notEqual),
    ("setl".toList, .set .less), ("setg".toList, .set .greater), ("setle".toList, .set .lessEqual),
    ("setge".toList, .set .greaterEqual), ("jmp".toList, .jmp), ("je".toList, .jmpIf .equal),
    ("jne".toList, .jmpIf .notEqual), ("jl".toList, .jmpIf .less), ("jg".toList, .jmpIf .greater),
    ("jle".toList, .jmpIf .lessEqual), ("jge".toList, .jmpIf .greaterEqual), ("ret".toList, .ret)]

theorem lookup_mnemonics : ∀ entry ∈ mnemonics, mnemonics.lookup entry.1 = some entry.2 ∧
    entry.1 ≠ [] ∧ entry.1.all (fun c => 'a' ≤ c ∧ c ≤ 'z') := by
  decide

def names : List (List Char × Operand) :=
  [("rax".toList, .register .rax), ("rcx".toList, .register .rcx), ("rdx".toList, .register .rdx),
    ("rdi".toList, .register .rdi), ("rsp".toList, .register .rsp), ("rbp".toList, .register .rbp),
    ("al".toList, .lowByte .rax), ("cl".toList, .lowByte .rcx)]

/-- A memory operand such as `QWORD PTR [rbp-8]`. -/
def readMemory (cs : List Char) : Option Operand :=
  if cs.take 11 = "QWORD PTR [".toList ∧ cs.getLast? = some ']' then
    let inner := (cs.drop 11).dropLast
    match names.lookup (inner.take 3), Decimal.signed? (inner.drop 3) with
    | some (.register r), some displacement => some (.memory r displacement)
    | _, _ => none
  else none

/-- Whatever is no number, no name and no place in memory is a symbol. -/
def readOperand (cs : List Char) : Operand :=
  match Decimal.signed? cs with
  | some value => .immediate value
  | none => ((names.lookup cs).or (readMemory cs)).getD (.symbol (String.ofList cs))

def readOperation (cs : List Char) : Option Operation :=
  let rest := cs.dropWhile (· ≠ ' ')
  (mnemonics.lookup (cs.takeWhile (· ≠ ' '))).map fun mnemonic =>
    ⟨mnemonic, if rest = [] then [] else
      (rest.splitOn ',').map fun o => readOperand (o.dropWhile (· = ' '))⟩

/-- A label ends with a colon, and a directive begins with a dot. -/
def readLine (cs : List Char) : Option Item :=
  if cs = [] then some .directive
  else if cs.getLast? = some ':' then some (.label (String.ofList cs.dropLast))
  else if cs.head? = some '.' then some .directive
  else (readOperation (cs.dropWhile (· = ' '))).map .operation

def labelNames (image : List Item) : List String :=
  image.filterMap fun
    | .label name => some name
    | _ => none

@[simp] theorem labelNames_append (a b : List Item) :
    labelNames (a ++ b) = labelNames a ++ labelNames b :=
  List.filterMap_append

@[simp] theorem labelNames_nil : labelNames [] = [] := rfl

@[simp] theorem labelNames_label (name : String) (rest : List Item) :
    labelNames (.label name :: rest) = name :: labelNames rest := rfl

@[simp] theorem labelNames_directive (rest : List Item) :
    labelNames (.directive :: rest) = labelNames rest := rfl

@[simp] theorem labelNames_operation (o : Operation) (rest : List Item) :
    labelNames (.operation o :: rest) = labelNames rest := rfl

/-- Every line has to be read, and no label may stand on two of them. -/
def readText (text : String) : Option (List Item) :=
  ((text.toList.splitOn '\n').mapM readLine).filter fun image => (labelNames image).Nodup

end Machine

open Machine

namespace Operand

def operand : Operand → Machine.Operand
  | register r => .register r
  | immediate value => .immediate value

end Operand

def AluOp.machine : AluOp → Mnemonic
  | add => .add
  | sub => .sub
  | or => .or
  | xor => .xor
  | and => .and
  | imul => .imul

def ShiftOp.machine : ShiftOp → Mnemonic
  | shl => .shl
  | sar => .sar

/-- No character of these separates operands, lines or labels, and none is cut off. -/
structure Plain (cs : List Char) : Prop where
  separators : ∀ c ∈ cs, c ∉ [',', '\n', ':']
  head : cs.head? ≠ some ' '

structure Spells (cs : List Char) (o : Machine.Operand) : Prop extends Plain cs where
  reads : readOperand cs = o

theorem not_isDigit_separators : ∀ c ∈ [',', '\n', ':', ' '], c ≠ '-' ∧ c.isDigit = false :=
  List.all_iff_forall_prop.mp (by decide)

theorem toDigits_separators (n : Nat) : ∀ c ∈ Nat.toDigits 10 n, c ∉ [',', '\n', ':'] := by
  intro c hc hmem
  have hdigit := Nat.isDigit_of_mem_toDigits (by decide) (by decide) hc
  have hnot := not_isDigit_separators c (List.mem_append_left [' '] hmem)
  rw [hnot.2] at hdigit
  cases hdigit

theorem plain_ofInt (n : Int) : Plain (Decimal.ofInt n).toList := by
  have hchars : ∀ c ∈ (Decimal.ofInt n).toList, c ∉ [',', '\n', ':', ' '] := fun c hc hmem => by
    obtain ⟨hminus, hdigit⟩ := not_isDigit_separators c hmem
    obtain h | h := Decimal.mem_ofInt hc
    · exact hminus h
    · rw [hdigit] at h
      cases h
  refine ⟨fun c hc hmem => hchars c hc ?_, fun hhead => ?_⟩
  · simp only [List.mem_cons] at hmem ⊢
    tauto
  · exact hchars ' ' (List.mem_of_mem_head? (by rw [hhead]; rfl)) (by decide)

theorem Register.spells (r : Register) : Spells r.render.toList (.register r) := by
  cases r <;> exact ⟨⟨List.all_iff_forall_prop.mp (by decide), by decide⟩, rfl⟩

theorem spells_al : Spells "al".toList (.lowByte .rax) :=
  ⟨⟨List.all_iff_forall_prop.mp (by decide), by decide⟩, rfl⟩

theorem spells_cl : Spells "cl".toList (.lowByte .rcx) :=
  ⟨⟨List.all_iff_forall_prop.mp (by decide), by decide⟩, rfl⟩

theorem spells_immediate (n : Int) : Spells (Decimal.ofInt n).toList (.immediate n) := by
  refine ⟨plain_ofInt n, ?_⟩
  rw [readOperand, Decimal.signed?_ofInt]

theorem Operand.spells (o : Operand) : Spells o.render.toList o.operand := by
  cases o with
  | register r => exact r.spells
  | immediate value => exact spells_immediate value

theorem toList_renderSlot (slot : Nat) : (renderSlot slot).toList =
    "QWORD PTR [rbp-".toList ++ (Nat.toDigits 10 slot ++ [']']) := by
  simp [renderSlot, Nat.toList_repr]

theorem spells_slot (slot : Nat) : Spells (renderSlot slot).toList (.memory .rbp (-slot)) := by
  have hmemory : readMemory (renderSlot slot).toList = some (.memory .rbp (-slot)) := by
    have hnumber : Decimal.signed? ('-' :: Nat.toDigits 10 slot) = some (-(slot : Int)) := by
      rw [Decimal.signed?, Decimal.ofDigits?_toDigits]
      rfl
    have hlast : (renderSlot slot).toList.getLast? = some ']' := by
      rw [toList_renderSlot, ← List.append_assoc, List.getLast?_concat]
    have hinner : ((renderSlot slot).toList.drop 11).dropLast =
        "rbp".toList ++ '-' :: Nat.toDigits 10 slot := by
      rw [toList_renderSlot, ← List.append_assoc, List.drop_append_of_le_length (by simp),
        List.dropLast_concat]
      rfl
    rw [readMemory, if_pos ⟨by rw [toList_renderSlot]; rfl, hlast⟩, hinner]
    have hbase : names.lookup (("rbp".toList ++ '-' :: Nat.toDigits 10 slot).take 3) =
        some (.register .rbp) := rfl
    have hrest : ("rbp".toList ++ '-' :: Nat.toDigits 10 slot).drop 3 =
        '-' :: Nat.toDigits 10 slot := rfl
    simp only [hbase, hrest, hnumber]
  refine ⟨⟨?_, ?_⟩, ?_⟩
  · rw [toList_renderSlot]
    refine List.forall_mem_append.mpr ⟨List.all_iff_forall_prop.mp (by decide),
      List.forall_mem_append.mpr ⟨toDigits_separators slot, by simp⟩⟩
  · rw [toList_renderSlot]
    simp
  · have hnumber : Decimal.signed? (renderSlot slot).toList = none := by
      rw [toList_renderSlot]
      rfl
    have hname : names.lookup (renderSlot slot).toList = none := by
      rw [toList_renderSlot]
      rfl
    rw [readOperand, hnumber, hmemory, hname]
    rfl

theorem Label.toList_render (l : Label) : ∃ cs, l.render.toList = '.' :: 'L' :: cs ∧
    ∀ c ∈ cs, c ∉ [',', '\n', ':'] := by
  cases l with
  | exit => exact ⟨"return".toList, rfl, List.all_iff_forall_prop.mp (by decide)⟩
  | numbered role number =>
    refine ⟨role.render.toList ++ Nat.toDigits 10 number, ?_,
      List.forall_mem_append.mpr ⟨?_, toDigits_separators number⟩⟩
    · simp [Label.render, Nat.toList_repr]
    · cases role <;> exact List.all_iff_forall_prop.mp (by decide)

theorem Label.spells (l : Label) : Spells l.render.toList (.symbol l.render) := by
  obtain ⟨cs, hcs, hplain⟩ := l.toList_render
  have hsymbol : l.render = String.ofList ('.' :: 'L' :: cs) := by
    rw [← hcs, String.ofList_toList]
  rw [hcs, hsymbol]
  refine ⟨⟨?_, by simp⟩, rfl⟩
  exact List.forall_mem_cons.mpr ⟨by decide, List.forall_mem_cons.mpr ⟨by decide, hplain⟩⟩

namespace Instruction

/-- What the text of an instruction is read as. -/
def operation : Instruction → Operation
  | push source => ⟨.push, [.register source]⟩
  | pop target => ⟨.pop, [.register target]⟩
  | mov target source => ⟨.mov, [.register target, source.operand]⟩
  | load target slot => ⟨.mov, [.register target, .memory .rbp (-slot)]⟩
  | store slot source => ⟨.mov, [.memory .rbp (-slot), .register source]⟩
  | alu op target source => ⟨op.machine, [.register target, source.operand]⟩
  | neg target => ⟨.neg, [.register target]⟩
  | not target => ⟨.not, [.register target]⟩
  | shift op target => ⟨op.machine, [.register target, .lowByte .rcx]⟩
  | cqo => ⟨.cqo, []⟩
  | idiv divisor => ⟨.idiv, [.register divisor]⟩
  | cmp left right => ⟨.cmp, [.register left, right.operand]⟩
  | setByte condition => ⟨.set condition, [.lowByte .rax]⟩
  | widenByte => ⟨.movzx, [.register .rax, .lowByte .rax]⟩
  | jump target => ⟨.jmp, [.symbol target.render]⟩
  | jumpIf condition target => ⟨.jmpIf condition, [.symbol target.render]⟩
  | ret => ⟨.ret, []⟩

def texts : Instruction → String × List String
  | push source => ("push", [source.render])
  | pop target => ("pop", [target.render])
  | mov target source => ("mov", [target.render, source.render])
  | load target slot => ("mov", [target.render, renderSlot slot])
  | store slot source => ("mov", [renderSlot slot, source.render])
  | alu op target source => (op.mnemonic, [target.render, source.render])
  | neg target => ("neg", [target.render])
  | not target => ("not", [target.render])
  | shift op target => (op.mnemonic, [target.render, "cl"])
  | cqo => ("cqo", [])
  | idiv divisor => ("idiv", [divisor.render])
  | cmp left right => ("cmp", [left.render, right.render])
  | setByte condition => ("set" ++ condition.suffix, ["al"])
  | widenByte => ("movzx", ["rax", "al"])
  | jump target => ("jmp", [target.render])
  | jumpIf condition target => ("j" ++ condition.suffix, [target.render])
  | ret => ("ret", [])

theorem toList_render (i : Instruction) : i.render.toList =
    i.texts.1.toList ++ [','].intercalate (i.texts.2.map fun o => ' ' :: o.toList) := by
  cases i <;> simp [render, texts, List.intercalate, List.intersperse]

theorem mem_mnemonics (i : Instruction) :
    (i.texts.1.toList, i.operation.mnemonic) ∈ mnemonics := by
  cases i with
  | alu op _ _ => cases op <;> simp [mnemonics, texts, operation, AluOp.mnemonic, AluOp.machine]
  | shift op _ =>
    cases op <;> simp [mnemonics, texts, operation, ShiftOp.mnemonic, ShiftOp.machine]
  | setByte condition =>
    cases condition <;> simp [mnemonics, texts, operation, Condition.suffix]
  | jumpIf condition _ =>
    cases condition <;> simp [mnemonics, texts, operation, Condition.suffix]
  | _ => simp [mnemonics, texts, operation]

theorem spells_operands (i : Instruction) :
    List.Forall₂ (fun text o => Spells text.toList o) i.texts.2 i.operation.operands := by
  cases i with
  | push r => exact .cons r.spells .nil
  | pop r => exact .cons r.spells .nil
  | mov r source => exact .cons r.spells (.cons source.spells .nil)
  | load r slot => exact .cons r.spells (.cons (spells_slot slot) .nil)
  | store slot r => exact .cons (spells_slot slot) (.cons r.spells .nil)
  | alu op r source => exact .cons r.spells (.cons source.spells .nil)
  | neg r => exact .cons r.spells .nil
  | not r => exact .cons r.spells .nil
  | shift op r => exact .cons r.spells (.cons spells_cl .nil)
  | cqo => exact .nil
  | idiv r => exact .cons r.spells .nil
  | cmp r source => exact .cons r.spells (.cons source.spells .nil)
  | setByte condition => exact .cons spells_al .nil
  | widenByte => exact .cons (Register.spells .rax) (.cons spells_al .nil)
  | jump l => exact .cons l.spells .nil
  | jumpIf condition l => exact .cons l.spells .nil
  | ret => exact .nil

/-- Blanks in front of the operands are cut off. -/
theorem readOperand_operands {texts : List String} {operands : List Machine.Operand}
    (h : List.Forall₂ (fun text o => Spells text.toList o) texts operands) :
    (texts.map fun text => ' ' :: text.toList).map
      (fun o => readOperand (o.dropWhile (· = ' '))) = operands := by
  induction h with
  | nil => rfl
  | @cons text o _ _ hfirst _ ih =>
    have htrim : (' ' :: text.toList).dropWhile (· = ' ') = text.toList := by
      have hhead := hfirst.head
      rw [List.dropWhile_cons_of_pos (by rfl)]
      cases htext : text.toList with
      | nil => rfl
      | cons c cs =>
        rw [htext] at hhead
        exact List.dropWhile_cons_of_neg (by simpa using hhead)
    rw [List.map_cons, List.map_cons, ih, htrim, hfirst.reads]

theorem plain_operands (i : Instruction) : ∀ text ∈ i.texts.2, Plain text.toList := by
  have h := i.spells_operands.imp fun _ _ hspells => And.intro hspells.toPlain hspells
  exact ((List.forall₂_and_left _ _).mp h).1

theorem mnemonic_letters (i : Instruction) : ∀ c ∈ i.texts.1.toList, 'a' ≤ c ∧ c ≤ 'z' :=
  List.all_iff_forall_prop.mp (lookup_mnemonics _ i.mem_mnemonics).2.2

/-- The operands follow the first blank. -/
theorem span_render (i : Instruction) :
    i.render.toList.takeWhile (· ≠ ' ') = i.texts.1.toList ∧ i.render.toList.dropWhile (· ≠ ' ') =
      [','].intercalate (i.texts.2.map fun o => ' ' :: o.toList) := by
  have hletters : ∀ c ∈ i.texts.1.toList, decide (c ≠ ' ') = true := by
    intro c hc
    have hletter := i.mnemonic_letters c hc
    refine decide_eq_true fun hspace => ?_
    rw [hspace] at hletter
    exact absurd hletter (by decide)
  rw [i.toList_render, List.takeWhile_append_of_pos hletters, List.dropWhile_append_of_pos hletters]
  cases i.texts.2 with
  | nil => simp [List.intercalate]
  | cons first rest => cases rest <;> simp [List.intercalate]

theorem readOperation_render (i : Instruction) :
    readOperation i.render.toList = some i.operation := by
  obtain ⟨htake, hdrop⟩ := i.span_render
  have hreads := readOperand_operands i.spells_operands
  have hcomma : ∀ o ∈ i.texts.2.map fun o => ' ' :: o.toList, ',' ∉ o := by
    intro o ho hmem
    obtain ⟨text, htext, rfl⟩ := List.mem_map.mp ho
    cases hmem with
    | tail _ hmem => exact (i.plain_operands text htext).separators _ hmem (by decide)
  rw [readOperation, htake, hdrop, (lookup_mnemonics _ i.mem_mnemonics).1]
  cases htexts : i.texts.2 with
  | nil =>
    have hoperands : i.operation.operands = [] := by
      rw [← hreads, htexts]
      rfl
    rw [← hoperands]
    rfl
  | cons first rest =>
    rw [htexts] at hreads hcomma
    rw [List.splitOn_intercalate ',' hcomma (by simp), if_neg, hreads]
    · rfl
    · cases rest <;> simp [List.intercalate]

theorem not_mem_intercalate {c : Char} {texts : List (List Char)} (hc : c ≠ ',')
    (h : ∀ text ∈ texts, c ∉ text) : c ∉ [','].intercalate texts := by
  induction texts with
  | nil => exact List.not_mem_nil
  | cons text rest ih =>
    have hrest := ih fun o ho => h o (List.mem_cons_of_mem _ ho)
    cases rest with
    | nil => simpa using h
    | cons next rest =>
      rw [List.intercalate_cons_cons, List.mem_append, List.mem_append, List.mem_singleton]
      rintro ((htext | hcomma) | hmem)
      · exact h text List.mem_cons_self htext
      · exact hc hcomma
      · exact hrest hmem

theorem not_mem_render (i : Instruction) {c : Char} (hc : c ∈ ['\n', ':']) :
    c ∉ i.render.toList := by
  have hletter : ∀ c ∈ ['\n', ':'], c ≠ ',' ∧ c ≠ ' ' ∧ ¬('a' ≤ c ∧ c ≤ 'z') :=
    List.all_iff_forall_prop.mp (by decide)
  obtain ⟨hcomma, hblank, hletter⟩ := hletter c hc
  rw [i.toList_render, List.mem_append]
  rintro (hmem | hmem)
  · exact hletter (i.mnemonic_letters c hmem)
  · refine not_mem_intercalate hcomma (fun text htext hmem => ?_) hmem
    obtain ⟨o, ho, rfl⟩ := List.mem_map.mp htext
    cases hmem with
    | head => exact hblank rfl
    | tail _ hmem => exact (i.plain_operands o ho).separators c hmem (List.mem_cons_of_mem _ hc)

end Instruction

namespace Line

/-- What a line is read as. The name in a directive that ends with a colon makes it a label. -/
def item : Line → Item
  | intelNotation => .directive
  | global symbol =>
    if symbol.toList.getLast? = some ':' then
      .label (String.ofList (".globl " ++ symbol).toList.dropLast)
    else .directive
  | entry symbol => .label symbol
  | label l => .label l.render
  | instruction i => .operation i.operation

/-- Nothing but an instruction is read as an operation. -/
theorem exists_instruction_of_item {line : Line} {o : Operation} (h : line.item = .operation o) :
    ∃ i, line = .instruction i ∧ o = i.operation := by
  cases line with
  | instruction i =>
    cases h
    exact ⟨i, rfl, rfl⟩
  | global symbol =>
    rw [item] at h
    split at h <;> cases h
  | intelNotation | entry symbol | label l => cases h

/-- A line that names nothing with a line break in it. -/
def IsOneLine : Line → Prop
  | global symbol | entry symbol => '\n' ∉ symbol.toList
  | _ => True

theorem readLine_label (name : String) :
    readLine (name ++ ":").toList = some (.label name) := by
  have hchars : (name ++ ":").toList = name.toList ++ [':'] := String.toList_append
  rw [readLine, hchars, if_neg (by simp), if_pos (by simp), List.dropLast_concat,
    String.ofList_toList]

theorem readLine_render (line : Line) : readLine line.render.toList = some line.item := by
  cases line with
  | intelNotation => rfl
  | global symbol =>
    have hchars : (".globl " ++ symbol).toList = ".globl ".toList ++ symbol.toList :=
      String.toList_append
    have hlast : (".globl " ++ symbol).toList.getLast? = some ':' ↔
        symbol.toList.getLast? = some ':' := by
      rw [hchars, List.getLast?_append]
      cases symbol.toList.getLast? <;> simp
    have hhead : (".globl " ++ symbol).toList.head? = some '.' := by
      rw [hchars]
      rfl
    rw [render, readLine, if_neg (by rw [hchars]; simp), item]
    by_cases h : symbol.toList.getLast? = some ':'
    · rw [if_pos h, if_pos (hlast.mpr h)]
    · rw [if_neg h, if_neg (fun hl => h (hlast.mp hl)), if_pos hhead]
  | entry symbol => exact readLine_label symbol
  | label l => exact readLine_label l.render
  | instruction i =>
    have hchars : ("  " ++ i.render).toList = ' ' :: ' ' :: i.render.toList :=
      String.toList_append
    have hlast : (' ' :: ' ' :: i.render.toList).getLast? ≠ some ':' := by
      intro h
      have hmem := List.mem_of_getLast? h
      simp [i.not_mem_render (c := ':') (by decide)] at hmem
    have htrim : i.render.toList.dropWhile (· = ' ') = i.render.toList := by
      have hne := (lookup_mnemonics _ i.mem_mnemonics).2.1
      rw [i.toList_render]
      cases hmnemonic : i.texts.1.toList with
      | nil => exact absurd hmnemonic hne
      | cons c cs =>
        have hletter := i.mnemonic_letters c (by rw [hmnemonic]; exact List.mem_cons_self)
        refine List.dropWhile_cons_of_neg fun hblank => ?_
        rw [of_decide_eq_true hblank] at hletter
        exact absurd hletter (by decide)
    rw [render, hchars, readLine, if_neg (by simp), if_neg hlast, if_neg (by simp),
      List.dropWhile_cons_of_pos rfl, List.dropWhile_cons_of_pos rfl, htrim,
      i.readOperation_render]
    rfl

theorem not_mem_render {line : Line} (h : line.IsOneLine) : '\n' ∉ line.render.toList := by
  cases line with
  | intelNotation => decide
  | global symbol =>
    rw [render, String.toList_append, List.mem_append]
    rintro (hmem | hmem)
    · exact absurd hmem (by decide)
    · exact h hmem
  | entry symbol =>
    rw [render, String.toList_append, List.mem_append]
    rintro (hmem | hmem)
    · exact h hmem
    · exact absurd hmem (by decide)
  | label l =>
    rw [render, String.toList_append, List.mem_append]
    rintro (hmem | hmem)
    · exact l.spells.separators _ hmem (by decide)
    · exact absurd hmem (by decide)
  | instruction i =>
    rw [render, String.toList_append, List.mem_append]
    rintro (hmem | hmem)
    · exact absurd hmem (by decide)
    · exact i.not_mem_render (by decide) hmem

end Line

theorem splitOn_renderLines {lines : List Line} (h : ∀ line ∈ lines, line.IsOneLine) :
    (renderLines lines).toList.splitOn '\n' =
      lines.map (fun line => line.render.toList) ++ [[]] := by
  induction lines with
  | nil => rfl
  | cons line rest ih =>
    have hchars : (renderLines (line :: rest)).toList =
        line.render.toList ++ '\n' :: (renderLines rest).toList := by
      simp [renderLines]
    rw [hchars, List.splitOn_append_cons_self_of_not_mem
      (Line.not_mem_render (h line List.mem_cons_self)),
      ih fun l hl => h l (List.mem_cons_of_mem _ hl)]
    rfl

/-- What is behind the last line break is read as a blank line. -/
theorem readText_renderLines {lines : List Line} (h : ∀ line ∈ lines, line.IsOneLine)
    (hlabels : (labelNames (lines.map Line.item)).Nodup) :
    readText (renderLines lines) = some (lines.map Line.item ++ [.directive]) := by
  have hlines : ((renderLines lines).toList.splitOn '\n').mapM readLine =
      some (lines.map Line.item ++ [.directive]) := by
    rw [splitOn_renderLines h]
    clear h hlabels
    induction lines with
    | nil => rfl
    | cons line rest ih => simp [line.readLine_render, ih]
  have hnodup : (labelNames (lines.map Line.item ++ [.directive])).Nodup := by
    simpa using hlabels
  rw [readText, hlines, Option.filter_some, if_pos (decide_eq_true hnodup)]

end TinyCompiler
