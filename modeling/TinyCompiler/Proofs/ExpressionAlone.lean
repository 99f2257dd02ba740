import TinyCompiler.Proofs.ExpressionCode

/-! The lines of an expression, run by themselves: nothing else is there to run, so that they end
behind their last line with the value, or fault where evaluation meets a division that has no
quotient. -/
namespace TinyCompiler

open Lowering Machine

/-- Evaluation meets a division by zero, or one of the least word by minus one. It comes to a right
operand when the left one has its value, and behind a connective only if that value does not
decide. -/
inductive Expr.Stumbles (env : Env) : Expr → Prop where
  | unary {op : UnaryOp} {operand : Expr} : Stumbles env operand → Stumbles env (.unary op operand)
  | binaryLeft {op : BinaryOp} {left right : Expr} :
    Stumbles env left → Stumbles env (.binary op left right)
  | binaryRight {op : BinaryOp} {left right : Expr} {a : Int64} : left.eval env = some a →
    Stumbles env right → Stumbles env (.binary op left right)
  | division {op : BinaryOp} {left right : Expr} {a b : Int64} : op = .div ∨ op = .rem →
    left.eval env = some a → right.eval env = some b →
      b = 0 ∨ (a = Int64.minValue ∧ b = -1) → Stumbles env (.binary op left right)
  | comparisonLeft {op : Comparison} {left right : Expr} :
    Stumbles env left → Stumbles env (.comparison op left right)
  | comparisonRight {op : Comparison} {left right : Expr} {a : Int64} : left.eval env = some a →
    Stumbles env right → Stumbles env (.comparison op left right)
  | connectiveLeft {op : Connective} {left right : Expr} :
    Stumbles env left → Stumbles env (.connective op left right)
  | andRight {left right : Expr} {a : Int64} : left.eval env = some a → a ≠ 0 →
    Stumbles env right → Stumbles env (.connective .and left right)
  | orRight {left right : Expr} : left.eval env = some 0 → Stumbles env right →
    Stumbles env (.connective .or left right)

variable {env : Env}

theorem BinaryOp.apply_eq_none_iff {op : BinaryOp} {a b : Int64} :
    op.apply a b = none ↔
      (op = .div ∨ op = .rem) ∧ (b = 0 ∨ (a = Int64.minValue ∧ b = -1)) := by
  cases op with
  | div | rem =>
    rw [apply]
    split <;> simp_all
  | add | sub | or | xor | mul | shl | shr | and | andNot => simp [apply]

namespace Expr.Stumbles

theorem eval_eq_none {e : Expr} (h : e.Stumbles env) : e.eval env = none := by
  induction h with
  | unary _ ih => simp [eval, ih]
  | binaryLeft _ ih | comparisonLeft _ ih => simp [eval, ih]
  | binaryRight hl _ ih | comparisonRight hl _ ih => simp [eval, hl, ih]
  | division hop hl hr h =>
    simp only [eval, hl, hr, Option.bind_some]
    exact BinaryOp.apply_eq_none_iff.mpr ⟨hop, h⟩
  | @connectiveLeft op _ _ _ ih => cases op <;> simp [eval, ih]
  | andRight hl ha _ ih => simp [eval, hl, ha, ih]
  | orRight hl _ ih => simp [eval, hl, ih]

theorem of_eval {e : Expr} (h : e.eval env = none) : e.Stumbles env := by
  induction e with
  | integer | boolean | reference => cases h
  | unary op operand ih => exact .unary (ih (by simpa [eval] using h))
  | binary op left right ihl ihr =>
    cases hl : left.eval env with
    | none => exact .binaryLeft (ihl hl)
    | some a =>
      cases hr : right.eval env with
      | none => exact .binaryRight hl (ihr hr)
      | some b =>
        have happly : op.apply a b = none := by simpa [eval, hl, hr] using h
        obtain ⟨hop, hab⟩ := BinaryOp.apply_eq_none_iff.mp happly
        exact .division hop hl hr hab
  | comparison op left right ihl ihr =>
    cases hl : left.eval env with
    | none => exact .comparisonLeft (ihl hl)
    | some a => exact .comparisonRight hl (ihr (by simpa [eval, hl] using h))
  | connective op left right ihl ihr =>
    cases hl : left.eval env with
    | none => exact .connectiveLeft (ihl hl)
    | some a =>
      by_cases ha : a = 0
      · subst ha
        cases op with
        | and => simp [eval, hl] at h
        | or => exact .orRight hl (ihr (by simpa [eval, hl] using h))
      · cases op with
        | and => exact .andRight hl ha (ihr (by simpa [eval, hl, ha] using h))
        | or => simp [eval, hl, ha] at h

end Expr.Stumbles

theorem Expr.eval_eq_none_iff {e : Expr} : e.eval env = none ↔ e.Stumbles env :=
  ⟨.of_eval, Stumbles.eval_eq_none⟩

namespace Machine

variable {image : List Item} {s : State} {Q : State → Prop}

theorem not_faults_of_reaches (h : Reaches image s Q) (hQ : ∀ s', Q s' → ¬Faults image s') :
    ¬Faults image s := by
  rintro ⟨m, hm⟩
  obtain ⟨n, s', hn, hs'⟩ := h
  obtain hle | hle := Nat.le_total m n
  · -- A fault stays a fault.
    have hend : run image n s = run image m s := run_mono hle (by simp [hm])
    rw [hm, hn] at hend
    cases hend
  · obtain ⟨k, rfl⟩ := Nat.exists_eq_add_of_le hle
    exact hQ s' hs' ⟨k, (run_add hn k).symm.trans hm⟩

theorem not_faults_at_end {items : List Item} (hpc : s.pc = items.length) :
    ¬Faults (items ++ [.directive]) s := by
  have hstep : step (items ++ [.directive]) s = .running s.next := by
    simp [step, hpc]
  have hstuck : step (items ++ [.directive]) s.next = .stuck := by
    simp [step, State.next, hpc]
  rintro ⟨n, hn⟩
  obtain _ | _ | n := n
  · cases hn
  · rw [run_succ_of_step hstep] at hn
    cases hn
  · rw [run_succ_of_step hstep, run, hstuck] at hn
    cases hn

end Machine

variable {t : SymbolTable} {block : List Line} {n n' : Nat}

/-- The lines of an expression are read back as they are. -/
theorem Expr.readText_lower {e : Expr} (h : Gives (e.lower t) n block n') :
    readText (renderLines block) = some (block.map Line.item ++ [.directive]) ∧
      (labelNames (block.map Line.item ++ [.directive])).Nodup := by
  have hnumbered := Expr.numbered h
  exact ⟨hnumbered.readText, by simpa using hnumbered.nodup_labelNames⟩

/-- The lines of an expression, from any state whose slots can be read and with nothing around them,
get to the end with its value in `rax`, both pointers and the stack above its top as they were, or
they fault; and they fault exactly if evaluation stumbles. -/
theorem expression_alone {e : Expr} {s : State} (hlower : Gives (e.lower t) n block n')
    (hread : Readable t env s) (hpc : s.pc = 0) :
    ∃ image, readText (renderLines block) = some image ∧
      ((∃ v, e.eval env = some v ∧ Reaches image s fun s' =>
          s'.pc = block.length ∧ s'.registers .rax = .word v ∧ Keeps s s') ∨ Faults image s) ∧
      (Faults image s ↔ e.Stumbles env) := by
  obtain ⟨hread', hnodup⟩ := Expr.readText_lower hlower
  have hat : At (block.map Line.item ++ [.directive]) s.pc block :=
    hpc ▸ at_of_eq_append (a := []) rfl
  have hcomputes := Expr.computes hnodup hlower hat hread
  rw [hpc, Nat.zero_add] at hcomputes
  refine ⟨_, hread', ?_⟩
  rw [← Expr.eval_eq_none_iff]
  cases hv : e.eval env with
  | none =>
    rw [hv] at hcomputes
    exact ⟨.inr hcomputes, fun _ => rfl, fun _ => hcomputes⟩
  | some v =>
    rw [hv] at hcomputes
    have hno := not_faults_of_reaches hcomputes fun s' hs' =>
      not_faults_at_end (hs'.1.trans (List.length_map _).symm)
    exact ⟨.inl ⟨v, rfl, hcomputes⟩, fun h => absurd h hno, fun h => by cases h⟩

/-- A slot may stand right at the top of the stack. -/
theorem exists_reaches_of_comparison : ∃ (t : SymbolTable) (s : State) (block : List Line)
    (image : List Item),
    t = ⟨#[⟨"x", .integer 0⟩], [("x", 0)]⟩ ∧ s.registers .rbp = .address 0 ∧
      s.registers .rsp = .address (-8) ∧ s.memory (-8) = .word (-5) ∧
      Gives ((Expr.comparison .lt (.reference "x" 0) (.integer (-1))).lower t) 0 block 0 ∧
      readText (renderLines block) = some image ∧ Reaches image s fun s' =>
        s'.pc = block.length ∧ s'.registers .rax = .word 1 ∧ Keeps s s' := by
  let t : SymbolTable := ⟨#[⟨"x", .integer 0⟩], [("x", 0)]⟩
  let e : Expr := .comparison .lt (.reference "x" 0) (.integer (-1))
  let registers : Register → Value
    | .rbp => .address 0
    | .rsp => .address (-8)
    | _ => .word 0
  let s : State := ⟨0, registers, fun _ => .word (-5), none⟩
  have hlower : Gives (e.lower t) 0
      (code [.load .rax 8, .push .rax, .mov .rax (.immediate (-1)), .mov .rdi (.register .rax),
        .pop .rax, .cmp .rax (.register .rdi), .setByte .less, .widenByte]) 0 := rfl
  have hread : Readable t (fun _ => -5) s := by
    refine ⟨-8, rfl, fun name slot hslot => ⟨0, rfl, ?_, rfl⟩⟩
    obtain ⟨i, hi, rfl⟩ := Option.map_eq_some_iff.mp hslot
    have hlt : i < 1 := (List.idxOf?_eq_some_iff.mp hi).1
    omega
  obtain ⟨image, himage, hends, hfaults⟩ := expression_alone hlower hread rfl
  have heval : e.eval (fun _ => -5) = some 1 := by decide
  refine ⟨t, s, _, image, rfl, rfl, rfl, rfl, hlower, himage, ?_⟩
  obtain ⟨v, hv, hreaches⟩ := hends.resolve_right fun h => by
    rw [hfaults, ← Expr.eval_eq_none_iff, heval] at h
    cases h
  obtain rfl : v = 1 := Option.some.inj (hv.symm.trans heval)
  exact hreaches

end TinyCompiler
