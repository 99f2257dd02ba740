import TinyCompiler.Proofs.LabelSoundness
import TinyCompiler.Proofs.MemoryAccesses

/-! The frame of a compiled program. The slots of its names lie side by side below the base
pointer, and the frame is the least room for them in units of sixteen bytes. What the code reads and
writes by name lies in the frame, each name at its own slot. -/
namespace TinyCompiler

open Lowering Machine

namespace SymbolTable

variable {t : SymbolTable} {name : String} {slot : Nat}

def placed (t : SymbolTable) : List (String × Nat) :=
  t.names.mapIdx fun i name => (name, (i + 1) * 8)

/-- The slots as a map, filled name by name: a name that came again would move to a later slot. -/
def slots (t : SymbolTable) : Std.HashMap String Nat := .ofList t.placed

theorem map_fst_placed (t : SymbolTable) : t.placed.map Prod.fst = t.names :=
  List.ext_getElem? fun i => by cases h : t.names[i]? <;> simp [placed, h]

theorem pairwise_placed (h : t.names.Nodup) :
    t.placed.Pairwise fun a b => (a.1 == b.1) = false := by
  rw [← map_fst_placed] at h
  exact (List.pairwise_map.mp h).imp fun hne => beq_false_of_ne hne

/-- No name comes again, so every name keeps the slot of its place. -/
theorem getElem?_slots (h : t.names.Nodup) (name : String) : t.slots[name]? = t.slot? name := by
  cases hslot : t.slot? name with
  | some slot =>
    obtain ⟨i, hi, rfl⟩ := Option.map_eq_some_iff.mp hslot
    obtain ⟨hlt, hname, -⟩ := List.idxOf?_eq_some_iff.mp hi
    exact Std.HashMap.getElem?_ofList_of_mem BEq.rfl (pairwise_placed h)
      (List.mem_mapIdx.mpr ⟨i, hlt, by rw [hname]⟩)
  | none =>
    have hnot : name ∉ t.names := fun hmem => by
      obtain ⟨slot, hsome⟩ := exists_slot_iff.mpr hmem
      cases hslot.symm.trans hsome
    refine Std.HashMap.getElem?_ofList_of_contains_eq_false ?_
    rw [map_fst_placed]
    simpa using hnot

theorem size_slots (h : t.names.Nodup) : t.slots.size = t.names.length := by
  rw [slots, Std.HashMap.size_ofList (pairwise_placed h), placed, List.length_mapIdx]

theorem eight_dvd_slot (h : t.slot? name = some slot) : 8 ∣ slot := by
  obtain ⟨i, -, rfl⟩ := Option.map_eq_some_iff.mp h
  exact Nat.dvd_mul_left 8 (i + 1)

theorem mem_names_after_empty (calls : List Call) (name : String) :
    name ∈ (empty.after calls).names ↔ ∃ value, .declare name value ∈ calls := by
  have hempty : name ∉ empty.bound := List.not_mem_nil
  rw [(consistent_empty.after calls).names, List.mem_eraseDups]
  exact (consistent_empty.mem_bound_after calls name).trans (or_iff_right hempty)

theorem isLeast_frameSize (t : SymbolTable) :
    IsLeast {room | 16 ∣ room ∧ 8 * t.names.length ≤ room} t.frameSize := by
  have hsize : t.frameSize = (t.names.length * 8 + 15) / 16 * 16 := by
    rw [frameSize, size, names, List.length_map]
  rw [hsize]
  refine ⟨⟨Nat.dvd_mul_left _ _, by omega⟩, ?_⟩
  rintro _ ⟨⟨k, rfl⟩, hle⟩
  omega

end SymbolTable

/-- The operations that open a function: they make room for its slots, unless there are none. -/
def Machine.opening (frame : Nat) : List Operation :=
  [⟨.push, [.register .rbp]⟩, ⟨.mov, [.register .rbp, .register .rsp]⟩] ++
    (if frame = 0 then [] else [⟨.sub, [.register .rsp, .immediate frame]⟩]) ++
    [⟨.mov, [.register .rax, .immediate 0]⟩]

theorem Access.within_frame {t : SymbolTable} {slot : String → Nat} (hslot : t.PlacedBy slot)
    {a : Access} (ha : a.name ∈ t.names) {base : Register} {displacement : Int}
    (h : Machine.Operand.memory base displacement ∈ (a.operation slot).operands) :
    base = .rbp ∧ ∃ k : Nat, displacement = -k ∧ 8 ∣ k ∧ 8 ≤ k ∧ k ≤ t.frameSize := by
  obtain ⟨rfl, rfl⟩ := a.memory_operand h
  have hplaced := hslot a.name ha
  have hdvd := t.eight_dvd_slot hplaced
  exact ⟨rfl, slot a.name, rfl, hdvd, Nat.le_of_dvd (t.slot?_pos hplaced) hdvd, t.slot?_le hplaced⟩

namespace Program

/-- A program that assembles has no access to a name that is not declared. -/
theorem name_mem_of_assembly {p : Program} {entry text : String} (ht : p.symbols.Consistent)
    (h : p.assembly entry = .ok text) :
    ∀ a ∈ Stmt.accessesAll p.statements, a.name ∈ p.symbols.names := by
  have hfaults : p.faults = [] := (p.reports_faults ht entry).ok_iff.mp ⟨text, h⟩
  exact fun a ha => a.name_mem ht (List.filterMap_eq_nil_iff.mp hfaults a ha)

theorem item_behindEntry (frame : Nat) (body : List Line) :
    (behindEntry frame body).map Line.item =
      (opening frame).map .operation ++ (body ++ epilogue).map Line.item := by
  rw [behindEntry, opening]
  split <;> simp [code, Line.item, Instruction.operation, Operand.operand, AluOp.machine]

theorem memoryOperations_behindEntry (frame : Nat) (body : List Line) :
    memoryOperations ((behindEntry frame body).map Line.item ++ [.directive]) = touched body := by
  have hopening : memoryOperations ((opening frame).map .operation) = [] := by
    rw [opening]
    split <;> rfl
  have hclosing : touched epilogue = [] := rfl
  have hbody : memoryOperations ((body ++ epilogue).map Line.item) = touched body := by
    rw [← touched, touched_append, hclosing, List.append_nil]
  rw [item_behindEntry, memoryOperations_append, memoryOperations_append, hopening, hbody]
  exact List.append_nil _

theorem readText_behindEntry {p : Program} {body : List Line} {n : Nat} (frame : Nat)
    (h : Gives (Stmt.lowerBlock p.symbols p.statements) 0 body n) :
    readText (renderLines (behindEntry frame body)) =
      some ((behindEntry frame body).map Line.item ++ [.directive]) := by
  have hnumbered := Stmt.numberedBlock _ _ _ _ h
  refine readText_renderLines (isOneLine_behindEntry frame hnumbered.inner) ?_
  rw [labelNames_behindEntry frame hnumbered.inner]
  exact hnumbered.nodup_blockLabels.map Label.render_injective

/-- The lines up to the entry are a label and directives. -/
theorem front_without_operation {entry : String} (h : '\n' ∉ entry.toList) :
    ∀ line ∈ (renderLines [.intelNotation, .global entry, .entry entry]).toList.splitOn '\n',
      ∀ o, readLine line ≠ some (.operation o) := by
  have honeLine : ∀ line ∈ [Line.intelNotation, .global entry, .entry entry], line.IsOneLine := by
    simp [Line.IsOneLine, h]
  rw [splitOn_renderLines honeLine]
  intro line hline o hread
  obtain hline | hline := List.mem_append.mp hline
  · obtain ⟨written, hwritten, rfl⟩ := List.mem_map.mp hline
    rw [Line.readLine_render] at hread
    obtain ⟨i, rfl, -⟩ := Line.exists_instruction_of_item (Option.some.inj hread)
    simp at hwritten
  · obtain rfl := List.mem_singleton.mp hline
    cases hread

end Program

/-- The frame of a program whose table has been built by calls, in its text as it is read behind the
line of the entry. The room that the prologue makes is the least multiple of sixteen that holds a
word for each declared name. Each of these names has a slot of its own in it, and what the code
reads and writes in memory is, in order, what the statements read and write, each at the slot of
its name. -/
theorem frame_layout (calls : List SymbolTable.Call) (statements : List Stmt) {entry text : String}
    (h : (Program.mk statements (SymbolTable.empty.after calls)).assembly entry = .ok text) :
    let t := SymbolTable.empty.after calls
    ∃ (front behind : List Line) (image : List Item) (frame : Nat) (slot : String → Nat),
      front = [.intelNotation, .global entry, .entry entry] ∧
      text = renderLines front ++ renderLines behind ∧
      ('\n' ∉ entry.toList → ∀ line ∈ (renderLines front).toList.splitOn '\n',
        ∀ o, readLine line ≠ some (.operation o)) ∧
      readText (renderLines behind) = some image ∧
      (opening frame).map .operation <+: image ∧
      IsLeast {room | 16 ∣ room ∧ 8 * t.names.length ≤ room} frame ∧
      t.names.Nodup ∧ (∀ name, name ∈ t.names ↔ ∃ value, .declare name value ∈ calls) ∧
      t.slots.size = t.names.length ∧ (∀ name, t.slots[name]? = t.slot? name) ∧
      t.PlacedBy slot ∧ Set.InjOn slot {name | name ∈ t.names} ∧
      (∀ (o : Operation) (base : Register) (displacement : Int), .operation o ∈ image →
        .memory base displacement ∈ o.operands → base = .rbp ∧
          ∃ k : Nat, displacement = -k ∧ 8 ∣ k ∧ 8 ≤ k ∧ k ≤ frame) ∧
      (∀ a ∈ Stmt.accessesAll statements, a.name ∈ t.names) ∧
      memoryOperations image = (Stmt.accessesAll statements).map (Access.operation slot) := by
  intro t
  have ht : t.Consistent := SymbolTable.consistent_empty.after calls
  obtain ⟨slot, hslot⟩ := t.exists_placedBy
  have hdeclared := Program.name_mem_of_assembly ht h
  obtain ⟨lines, hlines, rfl⟩ := Program.assembly_eq_ok.mp h
  obtain ⟨body, n, hbody, rfl⟩ := Program.assemble_eq_ok.mp hlines
  have hoperations : memoryOperations
      ((Program.behindEntry t.frameSize body).map Line.item ++ [.directive]) =
        (Stmt.accessesAll statements).map (Access.operation slot) :=
    (Program.memoryOperations_behindEntry t.frameSize body).trans
      (Stmt.touched_of_lowerBlock hslot statements 0 body n hbody)
  refine ⟨_, Program.behindEntry t.frameSize body, _, t.frameSize, slot, rfl, ?_,
    Program.front_without_operation, Program.readText_behindEntry t.frameSize hbody, ?_,
    t.isLeast_frameSize, ht.nodup, SymbolTable.mem_names_after_empty calls,
    SymbolTable.size_slots ht.nodup, SymbolTable.getElem?_slots ht.nodup, hslot, hslot.injOn,
    fun o base displacement ho hmemory => ?_, hdeclared, hoperations⟩
  · rw [Program.assemble_lines, renderLines_append]
  · rw [Program.item_behindEntry, List.append_assoc]
    exact List.prefix_append _ _
  · have htouched := mem_memoryOperations.mpr ⟨ho, List.any_eq_true.mpr ⟨_, hmemory, rfl⟩⟩
    rw [hoperations] at htouched
    obtain ⟨a, ha, rfl⟩ := List.mem_map.mp htouched
    exact a.within_frame hslot (hdeclared a ha) hmemory

/-- Three names in a frame for four. References to `x` with different bindings read one slot. -/
theorem exists_frame_of_loop :
    let calls : List SymbolTable.Call := [.declare "x" (.integer 7), .declare "y" (.integer 1),
      .assign "x" (.binary .sub (.reference "x" 0) (.reference "y" 1)) 1,
      .declare "z" (.reference "x" 2)]
    let statements : List Stmt := [.declare "x" (.integer 7) 0, .declare "y" (.integer 1) 1,
      .loop (.reference "x" 0)
        [.assign "x" (.binary .sub (.reference "x" 0) (.reference "y" 1)) 2],
      .declare "z" (.reference "x" 2) 3]
    let read (slot : Nat) : Operation := ⟨.mov, [.register .rax, .memory .rbp (-slot)]⟩
    let write (slot : Nat) : Operation := ⟨.mov, [.memory .rbp (-slot), .register .rax]⟩
    ∃ text behind image,
      (Program.mk statements (SymbolTable.empty.after calls)).assembly "main" = .ok text ∧
      text = renderLines [.intelNotation, .global "main", .entry "main"] ++ renderLines behind ∧
      readText (renderLines behind) = some image ∧ (opening 32).map .operation <+: image ∧
      memoryOperations image =
        [write 8, write 16, read 8, read 8, read 16, write 8, read 8, write 24] := by
  intro calls statements read write
  obtain ⟨text, htext⟩ : ∃ text,
      (Program.mk statements (SymbolTable.empty.after calls)).assembly "main" = .ok text := ⟨_, rfl⟩
  obtain ⟨_, behind, image, frame, slot, rfl, hbehind, -, himage, hopening, hleast, -, -, -, -,
    hslot, -, -, -, hoperations⟩ := frame_layout calls statements htext
  have hsize : (SymbolTable.empty.after calls).size = 3 := rfl
  have hframe : frame = 32 := by
    rw [hleast.unique (SymbolTable.isLeast_frameSize _), SymbolTable.frameSize, hsize]
  have hx : slot "x" = 8 := hslot.eq rfl
  have hy : slot "y" = 16 := hslot.eq rfl
  have hz : slot "z" = 24 := hslot.eq rfl
  refine ⟨text, behind, image, htext, hbehind, himage, hframe ▸ hopening, ?_⟩
  rw [hoperations]
  simp [statements, read, write, Stmt.accessesAll, Stmt.accesses, Expr.accesses, Access.operation,
    hx, hy, hz]

end TinyCompiler
