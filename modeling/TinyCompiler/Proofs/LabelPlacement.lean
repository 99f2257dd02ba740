import Mathlib.Data.List.Nodup
import TinyCompiler.Proofs.AssemblyReader
import TinyCompiler.Proofs.LoweredForms

/-! Every label of a compiled program stands on one line, so that the text can be read and every
jump has one place to go. -/
namespace TinyCompiler

open Lowering Machine

def Label.number : Label → Nat
  | exit => 0
  | numbered _ k => k

def blockLabels (block : List Line) : List Label :=
  block.filterMap fun
    | .label l => some l
    | _ => none

def numbers (block : List Line) : List Nat := (blockLabels block).map Label.number

@[simp] theorem numbers_append (a b : List Line) : numbers (a ++ b) = numbers a ++ numbers b := by
  simp [numbers, blockLabels]

@[simp] theorem numbers_label (role : LabelRole) (k : Nat) (rest : List Line) :
    numbers (.label (.numbered role k) :: rest) = k :: numbers rest := by
  simp [numbers, blockLabels, Label.number]

@[simp] theorem numbers_nil : numbers [] = [] := rfl

@[simp] theorem numbers_code (is : List Instruction) : numbers (code is) = [] := by
  simp [numbers, blockLabels, code, List.filterMap_map]

/-- A line inside a function: an instruction, or a numbered label. -/
def Line.isInner : Line → Bool
  | label (.numbered _ _) | instruction _ => true
  | _ => false

@[simp] theorem Line.isInner_label (role : LabelRole) (k : Nat) :
    (label (.numbered role k)).isInner :=
  rfl

@[simp] theorem all_isInner_code (is : List Instruction) : (code is).all Line.isInner := by
  simp [code, Line.isInner]

theorem isOneLine_of_isInner {block : List Line} (h : block.all Line.isInner) :
    ∀ line ∈ block, line.IsOneLine := by
  intro line hline
  have hinner := List.all_eq_true.mp h line hline
  cases line with
  | global symbol => cases hinner
  | entry symbol => cases hinner
  | _ => trivial

/-- A block with one label for each number from `n` on below `n'`, and with no other label. -/
structure Numbered (n n' : Nat) (block : List Line) : Prop where
  le : n ≤ n'
  inner : block.all Line.isInner
  count : ∀ k, (numbers block).count k = if n ≤ k ∧ k < n' then 1 else 0

namespace Numbered

variable {n m l n' : Nat} {a b c : List Line}

theorem code (n : Nat) (is : List Instruction) : Numbered n n (code is) :=
  ⟨le_rfl, all_isInner_code is, by grind [numbers_code]⟩

theorem append (ha : Numbered n m a) (hb : Numbered m n' b) : Numbered n n' (a ++ b) := by
  refine ⟨ha.le.trans hb.le, by simp [ha.inner, hb.inner], fun k => ?_⟩
  rw [numbers_append, List.count_append, ha.count, hb.count]
  have hn := ha.le
  have hm := hb.le
  split_ifs <;> omega

theorem append_code (ha : Numbered n n' a) (is : List Instruction) :
    Numbered n n' (a ++ TinyCompiler.code is) :=
  ha.append (code n' is)

theorem operands (ha : Numbered n m a) (hb : Numbered m n' b) :
    Numbered n n' (Expr.operands a b) :=
  ha.append ((code m [.push .rax]).append (hb.append_code _))

theorem frame (op : Connective) (ha : Numbered (n + 2) m a) (hb : Numbered m n' b) :
    Numbered n n' (op.frame n a b) := by
  have hn := ha.le
  have hm := hb.le
  refine ⟨by omega, ?_, fun k => ?_⟩
  · simp [Connective.frame, ha.inner, hb.inner]
  · simp only [Connective.frame, List.append_assoc, List.cons_append, List.nil_append,
      numbers_append, numbers_code, numbers_label, numbers_nil, List.count_append,
      List.count_cons, List.count_nil, ha.count, hb.count, beq_iff_eq]
    split_ifs <;> omega

theorem branch (ha : Numbered (n + 2) m a) (hb : Numbered m l b) (hc : Numbered l n' c) :
    Numbered n n' (TinyCompiler.branch n a b c) := by
  have hn := ha.le
  have hm := hb.le
  have hl := hc.le
  refine ⟨by omega, ?_, fun k => ?_⟩
  · simp [TinyCompiler.branch, ha.inner, hb.inner, hc.inner]
  · simp only [TinyCompiler.branch, List.append_assoc, List.cons_append, List.nil_append,
      numbers_append, numbers_code, numbers_label, numbers_nil, List.count_append,
      List.count_cons, List.count_nil, ha.count, hb.count, hc.count, beq_iff_eq]
    split_ifs <;> omega

theorem cycle (ha : Numbered (n + 2) m a) (hb : Numbered m n' b) :
    Numbered n n' (TinyCompiler.cycle n a b) := by
  have hn := ha.le
  have hm := hb.le
  refine ⟨by omega, ?_, fun k => ?_⟩
  · simp [TinyCompiler.cycle, ha.inner, hb.inner]
  · simp only [TinyCompiler.cycle, List.append_assoc, List.cons_append, List.nil_append,
      numbers_append, numbers_code, numbers_label, numbers_nil, List.count_append,
      List.count_cons, List.count_nil, ha.count, hb.count, beq_iff_eq]
    split_ifs <;> omega

end Numbered

variable {t : SymbolTable} {block : List Line} {n n' : Nat}

theorem Expr.numbered {e : Expr} (h : Gives (e.lower t) n block n') : Numbered n n' block := by
  induction e generalizing n block n' with
  | integer value =>
    obtain ⟨rfl, rfl⟩ := lower_integer.mp h
    exact .code _ _
  | boolean value =>
    obtain ⟨rfl, rfl⟩ := lower_boolean.mp h
    exact .code _ _
  | reference name binding =>
    obtain ⟨-, slot, -, rfl, rfl⟩ := lower_reference.mp h
    exact .code _ _
  | unary op operand ih =>
    obtain ⟨o, ho, rfl⟩ := lower_unary.mp h
    exact (ih ho).append_code _
  | binary op left right ihl ihr =>
    obtain ⟨l, m, hl, r, hr, rfl⟩ := lower_binary.mp h
    exact ((ihl hl).operands (ihr hr)).append_code _
  | comparison op left right ihl ihr =>
    obtain ⟨l, m, hl, r, hr, rfl⟩ := lower_comparison.mp h
    exact ((ihl hl).operands (ihr hr)).append_code _
  | connective op left right ihl ihr =>
    obtain ⟨l, m, hl, r, hr, rfl⟩ := lower_connective.mp h
    exact (ihl hl).frame op (ihr hr)

namespace Stmt

theorem numbered_store {name : String} {value : Expr}
    (h : Gives (lowerStore t name value) n block n') : Numbered n n' block := by
  obtain ⟨v, hv, slot, -, rfl⟩ := gives_lowerStore.mp h
  exact (Expr.numbered hv).append_code _

mutual

theorem numbered (s : Stmt) (n : Nat) (block : List Line) (n' : Nat)
    (h : Gives (s.lower t) n block n') : Numbered n n' block := by
  cases s with
  | expr value => exact Expr.numbered h
  | declare name value binding => exact numbered_store h
  | assign name value binding => exact numbered_store h
  | ret value =>
    obtain ⟨v, hv, rfl⟩ := lower_ret.mp h
    exact (Expr.numbered hv).append_code _
  | ifThen condition consequent =>
    obtain ⟨c, m, hc, b, hb, rfl⟩ := lower_ifThen.mp h
    exact (Expr.numbered hc).branch (numberedBlock consequent m b n' hb) (.code _ [])
  | ifElse condition consequent alternate =>
    obtain ⟨c, m, hc, b, k, hb, a, ha, rfl⟩ := lower_ifElse.mp h
    exact (Expr.numbered hc).branch (numberedBlock consequent m b k hb)
      (numberedBlock alternate k a n' ha)
  | loop condition body =>
    obtain ⟨c, m, hc, b, hb, rfl⟩ := lower_loop.mp h
    exact (Expr.numbered hc).cycle (numberedBlock body m b n' hb)

theorem numberedBlock (ss : List Stmt) (n : Nat) (block : List Line) (n' : Nat)
    (h : Gives (lowerBlock t ss) n block n') : Numbered n n' block := by
  cases ss with
  | nil =>
    obtain ⟨rfl, rfl⟩ := lowerBlock_nil.mp h
    exact .code _ []
  | cons s rest =>
    obtain ⟨first, m, hfirst, others, hothers, rfl⟩ := lowerBlock_cons.mp h
    exact (numbered s n first m hfirst).append (numberedBlock rest m others n' hothers)

end

end Stmt

namespace Label

/-- The digits of a number follow everything else in the text of a label. -/
theorem span_render (role : LabelRole) (number : Nat) :
    (numbered role number).render.toList.takeWhile (fun c => !c.isDigit) =
      (".L" ++ role.render).toList ∧
    (numbered role number).render.toList.dropWhile (fun c => !c.isDigit) =
      Nat.toDigits 10 number := by
  have hchars : (numbered role number).render.toList =
      (".L" ++ role.render).toList ++ Nat.toDigits 10 number := by
    simp [render, Nat.toList_repr]
  have hrole : ∀ c ∈ (".L" ++ role.render).toList, (!c.isDigit) = true := by
    cases role <;> exact List.all_iff_forall_prop.mp (by decide)
  obtain ⟨d, ds, hdigits⟩ :=
    List.exists_cons_of_ne_nil (Nat.toDigits_ne_nil (n := number) (b := 10))
  have hd : ¬(!d.isDigit) = true := by
    have hmem : d ∈ Nat.toDigits 10 number := by
      rw [hdigits]
      exact List.mem_cons_self
    simp [Nat.isDigit_of_mem_toDigits (by decide) (by decide) hmem]
  have htake : (d :: ds).takeWhile (fun c => !c.isDigit) = [] := List.takeWhile_cons_of_neg hd
  have hdrop : (d :: ds).dropWhile (fun c => !c.isDigit) = d :: ds :=
    List.dropWhile_cons_of_neg hd
  rw [hchars, List.takeWhile_append_of_pos hrole, List.dropWhile_append_of_pos hrole, hdigits,
    htake, hdrop, List.append_nil]
  exact ⟨rfl, rfl⟩

theorem render_exit_ne (role : LabelRole) (number : Nat) :
    exit.render ≠ (numbered role number).render := by
  intro h
  have hdigits := (span_render role number).2
  rw [← h] at hdigits
  exact Nat.toDigits_ne_nil hdigits.symm

theorem render_injective : Function.Injective render := by
  intro l l' h
  cases l with
  | exit =>
    cases l' with
    | exit => rfl
    | numbered role' number' => exact absurd h (render_exit_ne role' number')
  | numbered role number =>
    cases l' with
    | exit => exact absurd h.symm (render_exit_ne role number)
    | numbered role' number' =>
      obtain ⟨htake, hdrop⟩ := span_render role number
      obtain ⟨htake', hdrop'⟩ := span_render role' number'
      rw [h] at htake hdrop
      have hnumber : number = number' := by
        have hdigits := congrArg (fun ds => Nat.ofDigitChars 10 ds 0) (hdrop.symm.trans hdrop')
        simpa [Nat.ofDigitChars_ten_toDigits] using hdigits
      have hrole : role = role' := by
        have htext := htake.symm.trans htake'
        revert htext
        cases role <;> cases role' <;> decide
      rw [hnumber, hrole]

end Label

theorem Machine.target?_of_nodup {image : List Item} {i : Nat} {name : String}
    (hlabels : (labelNames image).Nodup) (h : image[i]? = some (.label name)) :
    target? image name = some i := by
  induction image generalizing i with
  | nil => simp at h
  | cons item rest ih =>
    rw [target?, List.idxOf?_cons]
    cases i with
    | zero =>
      have hitem : item = .label name := by simpa using h
      simp [hitem]
    | succ i =>
      have hrest : rest[i]? = some (.label name) := by simpa using h
      have hmem : name ∈ labelNames rest :=
        List.mem_filterMap.mpr ⟨.label name, List.mem_of_getElem? hrest, rfl⟩
      cases item with
      | label other =>
        have hnodup : (other :: labelNames rest).Nodup := hlabels
        have hother : other ≠ name := by
          rintro rfl
          exact (List.nodup_cons.mp hnodup).1 hmem
        have hfound := ih (List.nodup_cons.mp hnodup).2 hrest
        rw [target?] at hfound
        simp [hother, hfound]
      | directive =>
        have hfound := ih hlabels hrest
        rw [target?] at hfound
        simp [hfound]
      | operation o =>
        have hfound := ih hlabels hrest
        rw [target?] at hfound
        simp [hfound]

theorem labelNames_item {block : List Line} (h : block.all Line.isInner) :
    labelNames (block.map Line.item) = (blockLabels block).map Label.render := by
  induction block with
  | nil => rfl
  | cons line rest ih =>
    rw [List.all_cons, Bool.and_eq_true] at h
    have hrest := ih h.2
    cases line with
    | label l => exact congrArg (l.render :: ·) hrest
    | instruction i => exact hrest
    | intelNotation => exact hrest
    | global symbol => simp [Line.isInner] at h
    | entry symbol => simp [Line.isInner] at h

theorem Numbered.nodup_blockLabels (h : Numbered n n' block) :
    (blockLabels block ++ [Label.exit]).Nodup := by
  have hnumbers : (numbers block).Nodup := by
    rw [List.nodup_iff_count_le_one]
    intro k
    rw [h.count]
    split_ifs <;> omega
  have hexit : Label.exit ∉ blockLabels block := by
    intro hmem
    obtain ⟨line, hline, hlabel⟩ := List.mem_filterMap.mp hmem
    have hinner := List.all_eq_true.mp h.inner line hline
    cases line <;> simp_all [Line.isInner]
  have hlabels : (blockLabels block).Nodup := .of_map _ hnumbers
  exact hlabels.append (List.nodup_singleton _) (List.disjoint_singleton.mpr hexit)

theorem Numbered.nodup_labelNames (h : Numbered n n' block) :
    (labelNames (block.map Line.item)).Nodup := by
  rw [labelNames_item h.inner]
  exact h.nodup_blockLabels.of_append_left.map Label.render_injective

/-- The lines of a block can be read on their own. -/
theorem Numbered.readText (h : Numbered n n' block) :
    readText (renderLines block) = some (block.map Line.item ++ [.directive]) :=
  readText_renderLines (isOneLine_of_isInner h.inner) h.nodup_labelNames

theorem labelNames_code (is : List Instruction) : labelNames ((code is).map Line.item) = [] := by
  induction is with
  | nil => rfl
  | cons i rest ih => exact ih

/-- The labels of a function are its entry, the numbered ones, and its exit. -/
theorem labelNames_function {entry : String} {frame : Nat} (h : block.all Line.isInner) :
    labelNames ((Program.prologue entry frame ++ block ++ Program.epilogue).map Line.item) =
      labelNames [(Line.global entry).item] ++
        entry :: (blockLabels block ++ [Label.exit]).map Label.render := by
  have hframe : labelNames ((if frame = 0 then [] else
      code [.alu .sub .rsp (.immediate frame)]).map Line.item) = [] := by
    split <;> rfl
  have hopening : labelNames ((Program.prologue entry frame).map Line.item) =
      labelNames [(Line.global entry).item] ++ [entry] := by
    simp only [Program.prologue, List.map_append, labelNames_append, hframe, labelNames_code,
      List.append_nil]
    exact labelNames_append [_] [_]
  have hclosing : labelNames (Program.epilogue.map Line.item) = [Label.exit.render] := rfl
  simp only [List.map_append, labelNames_append, hopening, hclosing, labelNames_item h]
  simp

/-- The name in a directive is no other name, even where it makes the line a label. -/
theorem labelNames_global (entry : String) : ∀ name ∈ labelNames [(Line.global entry).item],
    name ≠ entry ∧ ∀ l : Label, l.render ≠ name := by
  intro name hname
  have hchars : (".globl " ++ entry).toList = ".globl ".toList ++ entry.toList :=
    String.toList_append
  rw [Line.item] at hname
  split at hname
  next hcolon =>
    have htext : name.toList = ".globl ".toList ++ entry.toList.dropLast := by
      have hne : entry.toList ≠ [] := by
        intro hnil
        simp [hnil] at hcolon
      rw [List.mem_singleton.mp hname, String.toList_ofList, hchars,
        List.dropLast_append_of_ne_nil hne]
    refine ⟨fun h => ?_, fun l h => ?_⟩
    · have hlength := congrArg List.length htext
      rw [h] at hlength
      simp only [List.length_append, List.length_dropLast] at hlength
      have hprefix : ".globl ".toList.length = 7 := rfl
      omega
    · obtain ⟨cs, hcs, -⟩ := l.toList_render
      rw [h, htext] at hcs
      exact absurd (congrArg (·[1]?) hcs) (by simp)
  next => simp at hname

namespace Program

variable {p : Program} {entry : String} {lines : List Line}

theorem isOneLine_of_assemble (h : p.assemble entry = .ok lines) (hentry : '\n' ∉ entry.toList) :
    ∀ line ∈ lines, line.IsOneLine := by
  obtain ⟨body, n, hbody, rfl⟩ := assemble_eq_ok.mp h
  have hinner := (Stmt.numberedBlock _ _ _ _ hbody).inner
  have hcode (is : List Instruction) : ∀ line ∈ code is, line.IsOneLine :=
    isOneLine_of_isInner (all_isInner_code is)
  refine List.forall_mem_append.mpr
    ⟨List.forall_mem_append.mpr ⟨?_, isOneLine_of_isInner hinner⟩, ?_⟩
  · rw [prologue]
    refine List.forall_mem_append.mpr ⟨List.forall_mem_append.mpr
      ⟨List.forall_mem_append.mpr ⟨?_, hcode _⟩, ?_⟩, hcode _⟩
    · simp [Line.IsOneLine, hentry]
    · split
      · simp
      · exact hcode _
  · exact List.forall_mem_cons.mpr ⟨trivial, hcode _⟩

/-- The text of a compiled program can be read, and every label in it is found on its line, if
the entry is a name on one line that is none of the generated labels. -/
theorem readText_assembly (h : p.assemble entry = .ok lines) (hline : '\n' ∉ entry.toList)
    (hentry : ∀ l, .label l ∈ lines → l.render ≠ entry) :
    readText (renderLines lines) = some (lines.map Line.item ++ [.directive]) ∧
      (labelNames (lines.map Line.item ++ [.directive])).Nodup := by
  have honeLine := isOneLine_of_assemble h hline
  obtain ⟨body, n, hbody, rfl⟩ := assemble_eq_ok.mp h
  have hnumbered := Stmt.numberedBlock _ _ _ _ hbody
  have hlabels : (entry :: (blockLabels body ++ [Label.exit]).map Label.render).Nodup := by
    rw [List.nodup_cons]
    refine ⟨fun hmem => ?_, hnumbered.nodup_blockLabels.map Label.render_injective⟩
    obtain ⟨l, hl, hname⟩ := List.mem_map.mp hmem
    refine hentry l ?_ hname
    obtain hbody | hexit := List.mem_append.mp hl
    · obtain ⟨line, hline, hlabel⟩ := List.mem_filterMap.mp hbody
      have hline' : line = .label l := by
        cases line <;> simp_all
      rw [hline'] at hline
      exact List.mem_append_left _ (List.mem_append_right _ hline)
    · rw [List.mem_singleton.mp hexit]
      exact List.mem_append_right _ List.mem_cons_self
  have hnodup : (labelNames
      ((prologue entry p.symbols.frameSize ++ body ++ epilogue).map Line.item)).Nodup := by
    rw [labelNames_function hnumbered.inner]
    refine .append ?_ hlabels fun name hglobal hmem => ?_
    · rw [Line.item]
      split <;> simp
    · obtain ⟨hne, hlabel⟩ := labelNames_global entry name hglobal
      obtain heq | hmem := List.mem_cons.mp hmem
      · exact hne heq
      · obtain ⟨l, -, hl⟩ := List.mem_map.mp hmem
        exact hlabel l hl
  refine ⟨readText_renderLines honeLine hnodup, ?_⟩
  simpa using hnodup

end Program

end TinyCompiler
