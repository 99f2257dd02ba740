import TinyCompiler.Proofs.LabelPlacement

/-! Where blocks of lines stand in an image, and what the machine does when it goes through
them line by line. -/
namespace TinyCompiler.Machine

def At (image : List Item) : Nat → List Line → Prop
  | _, [] => True
  | pc, line :: rest => image[pc]? = some line.item ∧ At image (pc + 1) rest

def Reaches (image : List Item) (s : State) (Q : State → Prop) : Prop :=
  ∃ n s', run image n s = .running s' ∧ Q s'

def Faults (image : List Item) (s : State) : Prop := ∃ n, run image n s = .fault

/-- The machine is still running after so many steps, or more. -/
def Lasts (image : List Item) (s : State) (n : Nat) : Prop :=
  ∃ k s', n ≤ k ∧ run image k s = .running s'

variable {image : List Item} {s s' : State} {pc : Nat} {P Q : State → Prop}

@[simp] theorem length_code (is : List Instruction) : (code is).length = is.length :=
  List.length_map _

theorem at_append {a b : List Line} :
    At image pc (a ++ b) ↔ At image pc a ∧ At image (pc + a.length) b := by
  induction a generalizing pc with
  | nil => simp [At]
  | cons line rest ih =>
    rw [List.cons_append, At, At, ih, List.length_cons, and_assoc, Nat.add_assoc,
      Nat.add_comm 1]

theorem At.left {a b : List Line} (h : At image pc (a ++ b)) : At image pc a :=
  (at_append.mp h).1

theorem At.right {a b : List Line} (h : At image pc (a ++ b)) (p : Nat)
    (hp : p = pc + a.length) : At image p b :=
  hp ▸ (at_append.mp h).2

theorem at_of_eq_append {a block : List Line} {items : List Item}
    (h : image = a.map Line.item ++ block.map Line.item ++ items) : At image a.length block := by
  induction block generalizing a with
  | nil => trivial
  | cons line rest ih =>
    have hrest : image = (a ++ [line]).map Line.item ++ rest.map Line.item ++ items := by
      simp [h]
    have htail := ih hrest
    rw [List.length_append, List.length_singleton] at htail
    refine ⟨?_, htail⟩
    simp [h]

namespace Reaches

theorem refl (h : Q s) : Reaches image s Q := ⟨0, s, rfl, h⟩

theorem of_step (h : step image s = .running s') (hs' : Reaches image s' Q) :
    Reaches image s Q := by
  obtain ⟨n, s'', hrun, hQ⟩ := hs'
  exact ⟨n + 1, s'', (run_succ_of_step h n).trans hrun, hQ⟩

theorem trans (h : Reaches image s P) (hQ : ∀ s', P s' → Reaches image s' Q) :
    Reaches image s Q := by
  obtain ⟨m, s', hm, hP⟩ := h
  obtain ⟨n, s'', hn, hs''⟩ := hQ s' hP
  exact ⟨m + n, s'', (run_add hm n).trans hn, hs''⟩

theorem mono (h : Reaches image s P) (hQ : ∀ s', P s' → Q s') : Reaches image s Q :=
  h.trans fun s' hs' => refl (hQ s' hs')

theorem faults (h : Reaches image s P) (hfault : ∀ s', P s' → Faults image s') :
    Faults image s := by
  obtain ⟨m, s', hm, hP⟩ := h
  obtain ⟨n, hn⟩ := hfault s' hP
  exact ⟨m + n, (run_add hm n).trans hn⟩

theorem lasts {n : Nat} (h : Reaches image s P) (hlast : ∀ s', P s' → Lasts image s' n) :
    Lasts image s n := by
  obtain ⟨m, s', hm, hP⟩ := h
  obtain ⟨k, s'', hk, hrun⟩ := hlast s' hP
  exact ⟨m + k, s'', by omega, (run_add hm k).trans hrun⟩

end Reaches

/-- Goes through instructions that neither jump nor divide. -/
def follow (s : State) : List Instruction → Option State
  | [] => some s
  | i :: rest =>
    (advance s i.operation.mnemonic i.operation.operands).bind fun s' => follow s'.next rest

theorem perform_of_advance {mnemonic : Mnemonic} {operands : List Operand}
    (h : advance s mnemonic operands = some s') :
    perform image s ⟨mnemonic, operands⟩ = .running s'.next := by
  rw [perform.eq_def]
  split
  next heq =>
    cases heq
    simp [advance] at h
  next heq =>
    cases heq
    simp [advance] at h
  next heq =>
    cases heq
    simp [advance] at h
  next heq =>
    cases heq
    simp [advance] at h
  next heq =>
    cases heq
    rw [h]

theorem step_of_advance {i : Instruction} {rest : List Line}
    (hat : At image s.pc (.instruction i :: rest))
    (h : advance s i.operation.mnemonic i.operation.operands = some s') :
    step image s = .running s'.next := by
  rw [step, hat.1]
  exact perform_of_advance h

theorem write_pc {v : Value} {o : Operand} (h : s.write v o = some s') : s'.pc = s.pc := by
  cases o with
  | register r =>
    cases h
    rfl
  | memory base displacement =>
    obtain ⟨a, -, rfl⟩ := Option.map_eq_some_iff.mp h
    rfl
  | lowByte r => cases h
  | immediate value => cases h
  | symbol name => cases h

theorem compute_pc {f : Int64 → Int64 → Int64} {target source : Operand}
    (h : s.compute f target source = some s') : s'.pc = s.pc := by
  obtain ⟨a, -, h⟩ := Option.bind_eq_some_iff.mp h
  obtain ⟨b, -, h⟩ := Option.bind_eq_some_iff.mp h
  have hpc := write_pc h
  exact hpc

theorem advance_pc {mnemonic : Mnemonic} {operands : List Operand}
    (h : advance s mnemonic operands = some s') : s'.pc = s.pc := by
  revert h
  fun_cases advance s mnemonic operands <;> intro h
  case case1 source =>
    obtain ⟨v, -, h⟩ := Option.bind_eq_some_iff.mp h
    rw [State.push] at h
    split at h
    · cases h
      rfl
    · cases h
  case case2 target =>
    obtain ⟨⟨v, popped⟩, hpop, h⟩ := Option.bind_eq_some_iff.mp h
    rw [State.pop] at hpop
    split at hpop
    · cases hpop
      have hpc := write_pc h
      exact hpc
    · cases hpop
  case case3 target source =>
    obtain ⟨v, -, h⟩ := Option.bind_eq_some_iff.mp h
    exact write_pc h
  case case4 target r =>
    obtain ⟨v, -, h⟩ := Option.bind_eq_some_iff.mp h
    exact write_pc h
  case case14 target =>
    obtain ⟨v, -, h⟩ := Option.bind_eq_some_iff.mp h
    exact write_pc h
  case case17 =>
    obtain ⟨v, -, rfl⟩ := Option.map_eq_some_iff.mp h
    rfl
  case case18 left right =>
    obtain ⟨a, -, h⟩ := Option.bind_eq_some_iff.mp h
    obtain ⟨b, -, h⟩ := Option.bind_eq_some_iff.mp h
    cases h
    rfl
  case case19 condition r =>
    obtain ⟨a, -, h⟩ := Option.bind_eq_some_iff.mp h
    obtain ⟨b, -, h⟩ := Option.bind_eq_some_iff.mp h
    cases h
    rfl
  case case6 | case7 =>
    cases h
    rfl
  case case20 => cases h
  all_goals exact compute_pc h

/-- Going through a block of instructions ends behind it. -/
theorem reaches_follow {is : List Instruction} (hat : At image s.pc (code is))
    (h : follow s is = some s') (hs' : s'.pc = s.pc + is.length → Reaches image s' Q) :
    Reaches image s Q := by
  induction is generalizing s with
  | nil =>
    cases h
    exact hs' rfl
  | cons i is ih =>
    obtain ⟨t, ht, hrest⟩ := Option.bind_eq_some_iff.mp h
    have hnext : t.next.pc = s.pc + 1 := congrArg (· + 1) (advance_pc ht)
    refine .of_step (step_of_advance hat ht) (ih ?_ hrest fun hlen => hs' ?_)
    · rw [hnext]
      exact hat.2
    · rw [hlen, hnext, List.length_cons]
      omega

theorem follow_cons {i : Instruction} {is : List Instruction}
    (h : advance s i.operation.mnemonic i.operation.operands = some s') :
    follow s (i :: is) = follow s'.next is := by
  rw [follow, h]
  rfl

section Operations

variable {left right target : Operand} {r : Register} {a b w : Int64} {v : Value}

theorem readWord_register (h : s.registers r = .word w) : s.readWord (.register r) = some w := by
  rw [State.readWord, State.read, h]

theorem compute_register (f : Int64 → Int64 → Int64) (ha : s.registers r = .word a)
    (hb : s.readWord right = some b) :
    s.compute f (.register r) right = some ({ s with flags := none }.set r (.word (f a b))) := by
  rw [State.compute, readWord_register ha, hb]
  rfl

theorem advance_mov (h : s.read right = some v) :
    advance s .mov [.register r, right] = some (s.set r v) := by
  rw [advance, h]
  rfl

theorem advance_push {top : Int} (htop : s.registers .rsp = .address top) :
    advance s .push [.register r] =
      some ((s.set .rsp (.address (top - 8))).store (top - 8) (s.registers r)) := by
  simp only [advance, State.read, Option.bind_some, State.push, htop]

theorem advance_pop {top : Int} (htop : s.registers .rsp = .address top) :
    advance s .pop [.register r] =
      some ((s.set .rsp (.address (top + 8))).set r (s.memory top)) := by
  simp only [advance, State.pop, htop, Option.bind_some, State.write]

theorem advance_cmp (ha : s.readWord left = some a) (hb : s.readWord right = some b) :
    advance s .cmp [left, right] = some { s with flags := some (.compare a b) } := by
  rw [advance, ha, hb]
  rfl

theorem advance_set {f : Flags} {condition : Condition} (hf : s.flags = some f)
    (hw : s.registers r = .word w) : advance s (.set condition) [.lowByte r] =
      some (s.set r (.word (w &&& ~~~255 ||| if f.holds condition then 1 else 0))) := by
  rw [advance, hf, readWord_register hw]
  rfl

theorem advance_movzx (hw : s.registers r = .word w) :
    advance s .movzx [.register r, .lowByte r] = some (s.set r (.word (w &&& 255))) := by
  rw [advance, readWord_register hw]
  rfl

end Operations

theorem target?_of_at {l : Label} {rest : List Line} (hnodup : (labelNames image).Nodup)
    (hat : At image pc (.label l :: rest)) : target? image l.render = some pc :=
  target?_of_nodup hnodup hat.1

theorem step_label {l : Label} {rest : List Line} (hat : At image s.pc (.label l :: rest)) :
    step image s = .running s.next := by
  rw [step, hat.1]
  rfl

theorem step_jump {l : Label} {rest : List Line}
    (hat : At image s.pc (.instruction (.jump l) :: rest))
    (htarget : target? image l.render = some pc) :
    step image s = .running { s with pc := pc } := by
  rw [step, hat.1]
  simp only [Line.item, Instruction.operation, perform, goto, htarget]

theorem step_jumpIf {l : Label} {rest : List Line} {condition : Condition} {f : Flags}
    (hat : At image s.pc (.instruction (.jumpIf condition l) :: rest)) (hf : s.flags = some f)
    (htarget : target? image l.render = some pc) :
    step image s = .running { s with pc := if f.holds condition then pc else s.pc + 1 } := by
  rw [step, hat.1]
  simp only [Line.item, Instruction.operation, perform, goto, htarget, State.next, hf]
  split <;> rfl

/-- A value is compared with zero, and a condition on it decides where to go on. -/
theorem reaches_test {l : Label} {condition : Condition} {v : Int64}
    (hat : At image s.pc (code [.cmp .rax (.immediate 0), .jumpIf condition l]))
    (hrax : s.registers .rax = .word v) (htarget : target? image l.render = some pc) :
    Reaches image s fun s' =>
      s'.pc = (if (Flags.compare v 0).holds condition then pc else s.pc + 2) ∧
        s'.registers = s.registers ∧ s'.memory = s.memory := by
  have hcmp : advance s .cmp [.register .rax, .immediate 0] =
      some { s with flags := some (.compare v 0) } :=
    advance_cmp (readWord_register hrax) rfl
  have hjump := step_jumpIf (s := ({ s with flags := some (.compare v 0) } : State).next)
    hat.2 rfl htarget
  exact .of_step (step_of_advance hat hcmp) (.of_step hjump (.refl ⟨rfl, rfl, rfl⟩))

end TinyCompiler.Machine
