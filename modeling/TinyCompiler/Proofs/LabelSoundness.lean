import TinyCompiler.Proofs.JumpTargets

/-! The lines of the single statements and expressions in a compiled program, and the soundness of
its labels as its text is read. -/
namespace TinyCompiler

open Lowering Machine

variable {t : SymbolTable} {block : List Line} {n n' : Nat}

/-- A part of a program that is lowered on its own. -/
inductive Fragment where
  | expr (e : Expr)
  | stmt (s : Stmt)

namespace Fragment

def lower (t : SymbolTable) : Fragment → Lowering (List Line)
  | expr e => e.lower t
  | stmt s => s.lower t

def roles : Fragment → List LabelRole
  | expr e => e.roles
  | stmt s => s.roles

/-- The fragments that stand directly in a fragment, in the order in which they are lowered. -/
def parts : Fragment → List Fragment
  | expr (.integer _) | expr (.boolean _) | expr (.reference _ _) => []
  | expr (.unary _ operand) => [expr operand]
  | expr (.binary _ left right) | expr (.comparison _ left right)
  | expr (.connective _ left right) => [expr left, expr right]
  | stmt (.expr value) | stmt (.declare _ value _) | stmt (.assign _ value _)
  | stmt (.ret value) => [expr value]
  | stmt (.ifThen condition consequent) => expr condition :: consequent.map stmt
  | stmt (.ifElse condition consequent alternate) =>
    expr condition :: (consequent.map stmt ++ alternate.map stmt)
  | stmt (.loop condition body) => expr condition :: body.map stmt

def made : Fragment → Nat
  | expr (.connective _ _ _) | stmt (.ifThen _ _) | stmt (.ifElse _ _ _) | stmt (.loop _ _) => 2
  | _ => 0

theorem labelled {q : Fragment} (h : Gives (q.lower t) n block n') :
    Labelled q.roles n n' block := by
  cases q with
  | expr e => exact e.labelled h
  | stmt s => exact s.labelled n block n' h

theorem numbered {q : Fragment} (h : Gives (q.lower t) n block n') : Numbered n n' block := by
  cases q with
  | expr e => exact e.numbered h
  | stmt s => exact s.numbered n block n' h

end Fragment

/-- One of some fragments, or a fragment at any depth inside them. -/
inductive Fragment.Within (x : Fragment) : List Fragment → Prop where
  | here {rest : List Fragment} : Within x (x :: rest)
  | inside {q : Fragment} {rest : List Fragment} (h : Within x q.parts) : Within x (q :: rest)
  | later {q : Fragment} {rest : List Fragment} (h : Within x rest) : Within x (q :: rest)

/-- When some fragments are lowered one after the other from the count `n`, these lines are emitted
for a fragment: for one of them, or for one at any depth inside. -/
inductive Emitted (t : SymbolTable) : List Fragment → Nat → Fragment → List Line → Prop where
  | here {q : Fragment} {rest : List Fragment} {n m : Nat} {part : List Line}
      (h : Gives (q.lower t) n part m) : Emitted t (q :: rest) n q part
  | inside {q x : Fragment} {rest : List Fragment} {n : Nat} {part : List Line}
      (h : Emitted t q.parts (n + q.made) x part) : Emitted t (q :: rest) n x part
  | later {q x : Fragment} {rest : List Fragment} {n m : Nat} {first part : List Line}
      (hfirst : Gives (q.lower t) n first m) (h : Emitted t rest m x part) :
      Emitted t (q :: rest) n x part

/-- A block that holds the lines of some fragments in their order, with other lines around them. -/
inductive Spread (t : SymbolTable) : List Fragment → Nat → List Line → Nat → Prop where
  | nil {n : Nat} (fixed : List Line) : Spread t [] n fixed n
  | cons {q : Fragment} {rest : List Fragment} {n m n' : Nat} {part others : List Line}
      (fixed : List Line) (h : Gives (q.lower t) n part m) (hrest : Spread t rest m others n') :
      Spread t (q :: rest) n (fixed ++ part ++ others) n'

namespace Spread

variable {qs rs : List Fragment} {m : Nat} {a b part : List Line}

theorem single (q : Fragment) (h : Gives (q.lower t) n part n') : Spread t [q] n part n' := by
  have hcons := cons [] h (nil (t := t) [])
  rwa [List.nil_append, List.append_nil] at hcons

theorem before (h : Spread t qs n a n') (fixed : List Line) : Spread t qs n (fixed ++ a) n' := by
  cases h with
  | nil other => exact nil _
  | cons other hq hrest =>
    rw [← List.append_assoc, ← List.append_assoc]
    exact cons _ hq hrest

theorem append (ha : Spread t qs n a m) (hb : Spread t rs m b n') :
    Spread t (qs ++ rs) n (a ++ b) n' := by
  induction ha with
  | nil fixed => exact hb.before fixed
  | cons fixed hq hrest ih =>
    rw [List.append_assoc]
    exact cons fixed hq (ih hb)

theorem after (h : Spread t qs n a n') (fixed : List Line) : Spread t qs n (a ++ fixed) n' := by
  have happend := h.append (nil fixed)
  rwa [List.append_nil] at happend

theorem operands {l r : Expr} (hl : Gives (l.lower t) n a m) (hr : Gives (r.lower t) m b n') :
    Spread t [.expr l, .expr r] n (Expr.operands a b) n' :=
  (single (.expr l) hl).append
    (((single (.expr r) hr).after _).before [.instruction (.push .rax)])

theorem statements {ss : List Stmt} (h : Gives (Stmt.lowerBlock t ss) n a n') :
    Spread t (ss.map .stmt) n a n' := by
  induction ss generalizing n a with
  | nil =>
    obtain ⟨rfl, rfl⟩ := Stmt.lowerBlock_nil.mp h
    exact nil []
  | cons s rest ih =>
    obtain ⟨first, m, hfirst, others, hothers, rfl⟩ := Stmt.lowerBlock_cons.mp h
    exact (single (.stmt s) hfirst).append (ih hothers)

theorem store {name : String} {value : Expr} (h : Gives (Stmt.lowerStore t name value) n a n') :
    Spread t [.expr value] n a n' := by
  obtain ⟨v, hv, slot, -, rfl⟩ := Stmt.gives_lowerStore.mp h
  exact (single (.expr value) hv).after _

theorem branch {condition : Expr} {k : Nat} {c : List Line}
    (hc : Gives (condition.lower t) (n + 2) c m) (ha : Spread t qs m a k)
    (hb : Spread t rs k b n') :
    Spread t (.expr condition :: (qs ++ rs)) (n + 2) (TinyCompiler.branch n c a b) n' :=
  (((((single (.expr condition) hc).after _).append ha).after _).append (hb.before [_])).after _

theorem parts_expr {e : Expr} (h : Gives (e.lower t) n a n') :
    Spread t (Fragment.expr e).parts (n + (Fragment.expr e).made) a n' := by
  cases e with
  | integer value =>
    obtain ⟨rfl, rfl⟩ := Expr.lower_integer.mp h
    exact nil _
  | boolean value =>
    obtain ⟨rfl, rfl⟩ := Expr.lower_boolean.mp h
    exact nil _
  | reference name binding =>
    obtain ⟨-, slot, -, rfl, rfl⟩ := Expr.lower_reference.mp h
    exact nil _
  | unary op operand =>
    obtain ⟨o, ho, rfl⟩ := Expr.lower_unary.mp h
    exact (single (.expr operand) ho).after _
  | binary op left right =>
    obtain ⟨l, m, hl, r, hr, rfl⟩ := Expr.lower_binary.mp h
    exact (operands hl hr).after _
  | comparison op left right =>
    obtain ⟨l, m, hl, r, hr, rfl⟩ := Expr.lower_comparison.mp h
    exact (operands hl hr).after _
  | connective op left right =>
    obtain ⟨l, m, hl, r, hr, rfl⟩ := Expr.lower_connective.mp h
    exact (((((single (.expr left) hl).after _).append (single (.expr right) hr)).after _).after
      _).after _ |>.after _

theorem parts_stmt {s : Stmt} (h : Gives (s.lower t) n a n') :
    Spread t (Fragment.stmt s).parts (n + (Fragment.stmt s).made) a n' := by
  cases s with
  | expr value => exact single (.expr value) h
  | declare name value binding => exact store h
  | assign name value binding => exact store h
  | ret value =>
    obtain ⟨v, hv, rfl⟩ := Stmt.lower_ret.mp h
    exact (single (.expr value) hv).after _
  | ifThen condition consequent =>
    obtain ⟨c, m, hc, b, hb, rfl⟩ := Stmt.lower_ifThen.mp h
    have hparts := branch hc (statements hb) (nil [])
    rwa [List.append_nil] at hparts
  | ifElse condition consequent alternate =>
    obtain ⟨c, m, hc, b, k, hb, a, ha, rfl⟩ := Stmt.lower_ifElse.mp h
    exact branch hc (statements hb) (statements ha)
  | loop condition body =>
    obtain ⟨c, m, hc, b, hb, rfl⟩ := Stmt.lower_loop.mp h
    exact ((((((single (.expr condition) hc).before [_]).after _).append (statements hb)).after
      _).after _)

theorem parts {q : Fragment} (h : Gives (q.lower t) n a n') :
    Spread t q.parts (n + q.made) a n' := by
  cases q with
  | expr e => exact parts_expr h
  | stmt s => exact parts_stmt h

end Spread

theorem Lowering.Gives.unique {α : Type} {m : Lowering α} {a b : α} {k : Nat}
    (h : Gives m n a n') (h' : Gives m n b k) : a = b ∧ n' = k := by
  cases h.symm.trans h'
  exact ⟨rfl, rfl⟩

/-- The lines of a fragment stand together in the lines of the whole, and they are what the
fragment is lowered to from the count that it is reached with. -/
theorem Spread.infix_of_emitted {qs : List Fragment} {x : Fragment} {part : List Line}
    (hx : Emitted t qs n x part) (h : Spread t qs n block n') :
    part <:+: block ∧ ∃ k k', Gives (x.lower t) k part k' := by
  induction hx generalizing block n' with
  | here hq =>
    cases h with
    | cons fixed hq' hrest =>
      obtain ⟨rfl, rfl⟩ := hq.unique hq'
      exact ⟨⟨_, _, rfl⟩, _, _, hq⟩
  | inside _ ih =>
    cases h with
    | cons fixed hq' hrest =>
      obtain ⟨htogether, hgives⟩ := ih (.parts hq')
      exact ⟨htogether.trans ⟨_, _, rfl⟩, hgives⟩
  | later hfirst _ ih =>
    cases h with
    | cons fixed hq' hrest =>
      obtain ⟨rfl, rfl⟩ := hfirst.unique hq'
      obtain ⟨htogether, hgives⟩ := ih hrest
      exact ⟨htogether.trans (List.suffix_append _ _).isInfix, hgives⟩

theorem Spread.exists_emitted {qs : List Fragment} {x : Fragment} (hx : x.Within qs)
    (h : Spread t qs n block n') : ∃ part, Emitted t qs n x part := by
  induction hx generalizing n block n' with
  | here =>
    cases h with
    | cons fixed hq hrest => exact ⟨_, .here hq⟩
  | inside _ ih =>
    cases h with
    | cons fixed hq hrest =>
      obtain ⟨part, hpart⟩ := ih (.parts hq)
      exact ⟨part, .inside hpart⟩
  | later _ ih =>
    cases h with
    | cons fixed hq hrest =>
      obtain ⟨part, hpart⟩ := ih hrest
      exact ⟨part, .later hq hpart⟩

namespace Machine

def Operation.isJump (o : Operation) : Bool :=
  match o.mnemonic with
  | .jmp | .jmpIf _ => true
  | _ => false

def JumpsTo (image : List Item) (names : List String) : Prop :=
  ∀ o, .operation o ∈ image → o.isJump → ∃ name ∈ names, o.operands = [.symbol name]

theorem count_label (image : List Item) (name : String) :
    image.count (.label name) = (labelNames image).count name := by
  induction image with
  | nil => rfl
  | cons item rest ih => cases item <;> simp [List.count_cons, ih]

end Machine

theorem Instruction.target?_of_isJump {i : Instruction} (h : i.operation.isJump) :
    ∃ l, i.target? = some l ∧ i.operation.operands = [.symbol l.render] := by
  cases i with
  | jump target => exact ⟨target, rfl, rfl⟩
  | jumpIf condition target => exact ⟨target, rfl, rfl⟩
  | alu op target source => cases op <;> cases h
  | shift op target => cases op <;> cases h
  | _ => cases h

theorem jumpsTo_items {names : List String} (h : ∀ l ∈ targets block, l.render ∈ names) :
    JumpsTo (block.map Line.item ++ [.directive]) names := by
  intro o ho hjump
  obtain ho | ho := List.mem_append.mp ho
  · obtain ⟨line, hline, hitem⟩ := List.mem_map.mp ho
    obtain ⟨i, rfl, rfl⟩ := Line.exists_instruction_of_item hitem
    obtain ⟨l, hl, hoperands⟩ := Instruction.target?_of_isJump hjump
    exact ⟨l.render, h l (List.mem_filterMap.mpr ⟨_, hline, hl⟩), hoperands⟩
  · cases List.mem_singleton.mp ho

/-- The lines of a fragment can be read on their own, and what they jump to is among them, unless it
is the exit. -/
theorem Fragment.jumpsTo {q : Fragment} (h : Gives (q.lower t) n block n') :
    ∃ items, readText (renderLines block) = some items ∧
      JumpsTo items (Label.exit.render :: labelNames items) := by
  have hnumbered := numbered h
  refine ⟨_, hnumbered.readText, jumpsTo_items fun l hl => ?_⟩
  rw [labelNames_append, labelNames_item hnumbered.inner]
  obtain rfl | hl := (labelled h).closed l hl
  · exact List.mem_cons_self
  · exact List.mem_cons_of_mem _ (List.mem_append_left _ (List.mem_map_of_mem hl))

theorem renderLines_append (a b : List Line) :
    renderLines (a ++ b) = renderLines a ++ renderLines b := by
  simp [renderLines]

namespace Program

variable {p : Program} {entry text : String} {body : List Line}

/-- The lines behind the one with the entry: the frame is set up before the body. -/
def behindEntry (frame : Nat) (body : List Line) : List Line :=
  code ([.push .rbp, .mov .rbp (.register .rsp)] ++
    (if frame = 0 then [] else [.alu .sub .rsp (.immediate frame)]) ++
    [.mov .rax (.immediate 0)]) ++ body ++ epilogue

theorem assemble_lines (entry : String) (frame : Nat) (body : List Line) :
    prologue entry frame ++ body ++ epilogue =
      [.intelNotation, .global entry, .entry entry] ++ behindEntry frame body := by
  rw [prologue, behindEntry]
  split <;> simp [code]

theorem targets_behindEntry (frame : Nat) (body : List Line) :
    targets (behindEntry frame body) = targets body := by
  rw [behindEntry, epilogue]
  split <;> simp [Instruction.target?, List.filterMap_cons]

theorem labelNames_behindEntry (frame : Nat) (h : body.all Line.isInner) :
    labelNames ((behindEntry frame body).map Line.item) =
      (blockLabels body ++ [Label.exit]).map Label.render := by
  have hclosing : labelNames (epilogue.map Line.item) = [Label.exit.render] := rfl
  simp only [behindEntry, List.map_append, labelNames_append, labelNames_code, labelNames_item h,
    hclosing, List.nil_append, List.map_cons, List.map_nil]

theorem isOneLine_behindEntry (frame : Nat) (h : body.all Line.isInner) :
    ∀ line ∈ behindEntry frame body, line.IsOneLine := by
  refine List.forall_mem_append.mpr ⟨List.forall_mem_append.mpr
    ⟨isOneLine_of_isInner (all_isInner_code _), isOneLine_of_isInner h⟩, ?_⟩
  exact List.forall_mem_cons.mpr ⟨trivial, isOneLine_of_isInner (all_isInner_code _)⟩

/-- The labels of a compiled program are sound. The counter ends at the number of labels made,
their texts are distinct, and of the lines behind the entry exactly one carries each of them and
none carries another. Every jump names one of them. Every statement and every expression at any
depth has lines of its own, which stand together, and whose jumps stay among them or go to the
exit. -/
theorem labels_sound (h : p.assembly entry = .ok text) :
    ∃ body n behind image,
      Gives (Stmt.lowerBlock p.symbols p.statements) 0 body n ∧ p.labels.length = n + 1 ∧
      body <:+: behind ∧
      text = renderLines [.intelNotation, .global entry, .entry entry] ++ renderLines behind ∧
      readText (renderLines behind) = some image ∧
      (p.labels.map Label.render).Nodup ∧
      (∀ name, image.count (.label name) =
        if name ∈ p.labels.map Label.render then 1 else 0) ∧
      JumpsTo image (p.labels.map Label.render) ∧
      (∀ x : Fragment, x.Within (p.statements.map .stmt) →
        ∃ part, Emitted p.symbols (p.statements.map .stmt) 0 x part) ∧
      ∀ x part, Emitted p.symbols (p.statements.map .stmt) 0 x part → part <:+: body ∧
        ∃ items, readText (renderLines part) = some items ∧
          JumpsTo items (Label.exit.render :: labelNames items) := by
  obtain ⟨lines, hlines, rfl⟩ := assembly_eq_ok.mp h
  obtain ⟨body, n, hbody, rfl⟩ := assemble_eq_ok.mp hlines
  have hnumbered := Stmt.numberedBlock _ _ _ _ hbody
  have hlabelled := Stmt.labelledBlock _ _ _ _ hbody
  have hlabels : (blockLabels body ++ [Label.exit]).Perm p.labels :=
    List.perm_append_comm.trans (hlabelled.labels.cons _)
  have hdistinct : (p.labels.map Label.render).Nodup :=
    (hlabels.nodup_iff.mp hnumbered.nodup_blockLabels).map Label.render_injective
  have hnames := labelNames_behindEntry p.symbols.frameSize hnumbered.inner
  have hperm : (labelNames ((behindEntry p.symbols.frameSize body).map Line.item)).Perm
      (p.labels.map Label.render) := by
    rw [hnames]
    exact hlabels.map _
  refine ⟨body, n, behindEntry p.symbols.frameSize body, _, hbody, ?_, ⟨_, _, rfl⟩, ?_,
    readText_renderLines (isOneLine_behindEntry _ hnumbered.inner) (hperm.nodup_iff.mpr hdistinct),
    hdistinct, fun name => ?_, jumpsTo_items fun l hl => ?_,
    fun x hx => (Spread.statements hbody).exists_emitted hx, fun x part hx => ?_⟩
  · rw [labels, List.length_cons, length_labelsFrom, hlabelled.stop, Nat.zero_add]
  · rw [assemble_lines, renderLines_append]
  · rw [count_label, ← hdistinct.count, ← hperm.count_eq, labelNames_append]
    simp
  · rw [targets_behindEntry] at hl
    refine List.mem_map_of_mem (hlabels.mem_iff.mp ?_)
    obtain rfl | hl := hlabelled.closed l hl
    · exact List.mem_append_right _ List.mem_cons_self
    · exact List.mem_append_left _ hl
  · obtain ⟨htogether, k, k', hgives⟩ := (Spread.statements hbody).infix_of_emitted hx
    exact ⟨htogether, Fragment.jumpsTo hgives⟩

/-- A connective in the condition of a branch: its labels come after those of the branch, and they
stand in its own lines. -/
theorem exists_labels_in_branch :
    ∃ (p : Program) (text : String), p.assembly "main" = .ok text ∧
      p.labels.map Label.render = [".Lreturn", ".Lelse0", ".Lend1", ".Lshort2", ".Lend3"] ∧
      ∃ x part, Emitted p.symbols (p.statements.map .stmt) 0 x part ∧
        blockLabels part = [.numbered .short 2, .numbered .finish 3] ∧
        ∃ items, readText (renderLines part) = some items ∧
          JumpsTo items (Label.exit.render :: labelNames items) := by
  let condition : Expr := .connective .and (.boolean true) (.boolean false)
  let p : Program := ⟨[.ifThen condition [.ret (.integer 1)]], .empty⟩
  obtain ⟨text, htext⟩ : ∃ text, p.assembly "main" = .ok text := ⟨_, rfl⟩
  obtain ⟨part, hpart, hpartLabels⟩ : ∃ part, Gives (condition.lower p.symbols) 2 part 4 ∧
      blockLabels part = [.numbered .short 2, .numbered .finish 3] := ⟨_, rfl, rfl⟩
  have hemitted : Emitted p.symbols (p.statements.map .stmt) 0 (.expr condition) part :=
    .inside (.here (q := .expr condition) hpart)
  obtain ⟨body, n, behind, image, -, -, -, -, -, -, -, -, -, hparts⟩ := labels_sound htext
  exact ⟨p, text, htext, rfl, _, part, hemitted, hpartLabels, (hparts _ _ hemitted).2⟩

end Program

end TinyCompiler
