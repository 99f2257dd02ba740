import TinyCompiler.Proofs.LoweringSucceeds
import TinyCompiler.Proofs.MeaningPreserved
import TinyCompiler.Proofs.UnreadCells

/-! What decides how a compiled program ends: its source, and beside it only the words of the slots
that a run reads before it has stored into them. -/
namespace TinyCompiler

namespace Machine

def Returns (image : List Item) (s : State) (v : Int64) : Prop :=
  ∃ n s', run image n s = .returned s' ∧ s'.registers .rax = .word v

def Endless (image : List Item) (s : State) : Prop := ∀ n, ∃ s', run image n s = .running s'

/-- Both runs return the same word, or both fault, or neither ends. -/
def SameEnd (image : List Item) (s t : State) : Prop :=
  (∃ v, Returns image s v ∧ Returns image t v) ∨ (Faults image s ∧ Faults image t) ∨
    (Endless image s ∧ Endless image t)

variable {image : List Item} {U : Int → Prop} {s t s' t' : State} {v w : Int64}

theorem eq_of_ended {m n : Nat} {x y : Outcome} (hm : run image m s = x) (hn : run image n s = y)
    (hx : ∀ s', x ≠ .running s') (hy : ∀ s', y ≠ .running s') : x = y := by
  rw [← hm] at hx ⊢
  rw [← hn] at hy ⊢
  obtain hmn | hnm := Nat.le_total m n
  · exact (run_mono hmn hx).symm
  · exact run_mono hnm hy

theorem Returns.unique (h : Returns image s v) (h' : Returns image s w) : v = w := by
  obtain ⟨m, s₁, hm, hv⟩ := h
  obtain ⟨n, s₂, hn, hw⟩ := h'
  cases eq_of_ended hm hn nofun nofun
  cases hv.symm.trans hw
  rfl

theorem Returns.not_faults (h : Returns image s v) : ¬Faults image s := by
  intro ⟨n, hn⟩
  obtain ⟨m, s₁, hm, -⟩ := h
  cases eq_of_ended hm hn nofun nofun

theorem Returns.not_endless (h : Returns image s v) : ¬Endless image s := by
  intro hendless
  obtain ⟨n, s₁, hn, -⟩ := h
  obtain ⟨s₂, hrun⟩ := hendless n
  cases hn.symm.trans hrun

theorem Returns.not_sameEnd (hs : Returns image s v) (ht : Returns image t w) (hne : v ≠ w) :
    ¬SameEnd image s t := by
  rintro (⟨u, hs', ht'⟩ | ⟨hs', -⟩ | ⟨hs', -⟩)
  · exact hne ((hs.unique hs').trans (ht'.unique ht))
  · exact hs.not_faults hs'
  · exact hs.not_endless hs'

theorem Alike.returns (h : Alike U s t) (hU : ∀ a, U a → ¬ReadsEarly image a s)
    (ht : Returns image t v) : Returns image s v := by
  obtain ⟨n, t', hrun, hrax⟩ := ht
  obtain ⟨V, halike⟩ := h.run hU n
  rw [hrun] at halike
  generalize hs : Machine.run image n s = outcome at halike
  cases halike with
  | returned halike => exact ⟨n, _, hs, by rw [← halike.registers, hrax]⟩

theorem Alike.faults (h : Alike U s t) (hU : ∀ a, U a → ¬ReadsEarly image a s)
    (ht : Faults image t) : Faults image s := by
  obtain ⟨n, hrun⟩ := ht
  obtain ⟨V, halike⟩ := h.run hU n
  rw [hrun] at halike
  generalize hs : Machine.run image n s = outcome at halike
  cases halike with
  | fault => exact ⟨n, hs⟩

theorem Alike.endless (h : Alike U s t) (hU : ∀ a, U a → ¬ReadsEarly image a s)
    (ht : Endless image t) : Endless image s := by
  intro n
  obtain ⟨t', hrun⟩ := ht n
  obtain ⟨V, halike⟩ := h.run hU n
  rw [hrun] at halike
  generalize hs : Machine.run image n s = outcome at halike
  cases halike with
  | running halike => exact ⟨_, rfl⟩

/-- Cells that neither run reads early may hold anything. -/
theorem SameEnd.of_alike (h : SameEnd image s' t') (hs : Alike U s s') (ht : Alike U t t')
    (hUs : ∀ a, U a → ¬ReadsEarly image a s) (hUt : ∀ a, U a → ¬ReadsEarly image a t) :
    SameEnd image s t := by
  obtain ⟨v, hs', ht'⟩ | ⟨hs', ht'⟩ | ⟨hs', ht'⟩ := h
  · exact .inl ⟨v, hs.returns hUs hs', ht.returns hUt ht'⟩
  · exact .inr (.inl ⟨hs.faults hUs hs', ht.faults hUt ht'⟩)
  · exact .inr (.inr ⟨hs.endless hUs hs', ht.endless hUt ht'⟩)

theorem sameEnd_of_agrees {interpret : Nat → Result} (hs : Agrees image s interpret)
    (ht : Agrees image t interpret) : SameEnd image s t := by
  by_cases hvalue : ∃ fuel v, interpret fuel = .value v
  · obtain ⟨fuel, v, hv⟩ := hvalue
    obtain ⟨n, s', hrun, hrax, -⟩ := hs.value fuel v hv
    obtain ⟨n', t', hrun', hrax', -⟩ := ht.value fuel v hv
    exact .inl ⟨v, ⟨n, s', hrun, hrax⟩, ⟨n', t', hrun', hrax'⟩⟩
  by_cases hfault : ∃ fuel, interpret fuel = .fault
  · obtain ⟨fuel, hf⟩ := hfault
    exact .inr (.inl ⟨hs.fault fuel hf, ht.fault fuel hf⟩)
  · have hexhausted (fuel : Nat) : interpret fuel = .exhausted := by
      cases hr : interpret fuel with
      | value v => exact absurd ⟨fuel, v, hr⟩ hvalue
      | fault => exact absurd ⟨fuel, hr⟩ hfault
      | exhausted => rfl
    exact .inr (.inr ⟨hs.exhausted hexhausted, ht.exhausted hexhausted⟩)

noncomputable def State.clear (U : Int → Prop) (s : State) : State :=
  open Classical in { s with memory := fun a => if U a then .word 0 else s.memory a }

theorem alike_clear (U : Int → Prop) (s : State) : Alike U s (s.clear U) :=
  ⟨rfl, rfl, rfl, fun _ ha => if_neg ha⟩

end Machine

open Machine

/-- Where each slot holds the same word for both, or is cleared, one environment tells the words of
the names for both. -/
theorem exists_env {t : SymbolTable} {base : Int} {s s' : State} (U : Int → Prop)
    (h : ∀ name slot, t.slot? name = some slot → ¬U (base - slot) →
      ∃ w, s.memory (base - slot) = .word w ∧ s'.memory (base - slot) = .word w) :
    ∃ env : Env, ∀ name slot, t.slot? name = some slot →
      (s.clear U).memory (base - slot) = .word (env name) ∧
        (s'.clear U).memory (base - slot) = .word (env name) := by
  have hword (name : String) : ∃ w, ∀ slot, t.slot? name = some slot →
      (s.clear U).memory (base - slot) = .word w ∧
        (s'.clear U).memory (base - slot) = .word w := by
    cases hslot : t.slot? name with
    | none => exact ⟨0, nofun⟩
    | some slot =>
      by_cases hU : U (base - slot)
      · refine ⟨0, fun slot' hslot' => ?_⟩
        cases hslot'
        simp [State.clear, hU]
      · obtain ⟨w, hs, hs'⟩ := h name slot hslot hU
        refine ⟨w, fun slot' hslot' => ?_⟩
        cases hslot'
        simp [State.clear, hU, hs, hs']
  choose env henv using hword
  exact ⟨env, henv⟩

variable {source entry text : String} {limit : Nat}

/-- The end of a compiled program depends on its source, and on the slots that are read early: two
runs from the entry end in the same way if each slot that one of them reads before it has stored
into it holds the same word for both. All else may differ. -/
theorem sameEnd_of_compile (h : compile source limit entry = .ok text)
    (hline : '\n' ∉ entry.toList) (hentry : ∀ l : Label, l.render ≠ entry) :
    ∃ p image start, parseSource source limit = .ok p ∧ readText text = some image ∧
      target? image entry = some start ∧
      ∀ (s t : State) (top : Int), s.pc = start → t.pc = start →
        s.registers .rsp = .address top → t.registers .rsp = .address top →
        (∀ name slot, p.symbols.slot? name = some slot →
          ReadsEarly image (top - 8 - slot) s ∨ ReadsEarly image (top - 8 - slot) t →
          ∃ w, s.memory (top - 8 - slot) = .word w ∧ t.memory (top - 8 - slot) = .word w) →
        SameEnd image s t := by
  obtain ⟨p, hp, htext⟩ := compile_eq_ok.mp h
  obtain ⟨lines, hlines, rfl⟩ := Program.assembly_eq_ok.mp htext
  obtain ⟨hread, hnodup⟩ := Program.readText_assembly hlines hline fun l _ => hentry l
  obtain ⟨hstart, hagrees⟩ := Program.agrees_of_assemble hlines rfl hnodup
  refine ⟨p, _, 2, hp, hread, hstart, fun s t top hs ht htops htopt hslots => ?_⟩
  let image := lines.map Line.item ++ [Item.directive]
  let U (a : Int) : Prop := ¬ReadsEarly image a s ∧ ¬ReadsEarly image a t
  obtain ⟨env, henv⟩ := exists_env U fun name slot hslot hU =>
    hslots name slot hslot (by rwa [not_and_or, not_not, not_not] at hU)
  have hcleared : SameEnd image (s.clear U) (t.clear U) := sameEnd_of_agrees
    (hagrees _ top env hs htops fun name slot hslot => (henv name slot hslot).1)
    (hagrees _ top env ht htopt fun name slot hslot => (henv name slot hslot).2)
  exact hcleared.of_alike (alike_clear U s) (alike_clear U t) (fun a ha => ha.1) fun a ha => ha.2

/-- A name is bound where the source stands, and the statement that binds it is left out. -/
def skipped : Program where
  statements := [.ifThen (.boolean false) [.declare "x" (.integer 1) 0], .expr (.reference "x" 0)]
  symbols := (SymbolTable.empty.declare "x" (.integer 1)).2

theorem parseSource_skipped :
    parseSource "if false \x7b x := 1 \x7d x" defaultLimit = .ok skipped := by decide +kernel

theorem slot?_skipped {name : String} {slot : Nat} (h : skipped.symbols.slot? name = some slot) :
    slot = 8 := by
  obtain ⟨i, hi, rfl⟩ := Option.map_eq_some_iff.mp h
  obtain ⟨hlt, -, -⟩ := List.idxOf?_eq_some_iff.mp hi
  have hlength : skipped.symbols.names.length = 1 := by decide +kernel
  omega

/-- The machine before a call, with a word in each cell below the stack, which begins at address
zero. -/
def calling (w : Int64) : State where
  pc := 2
  registers := fun r => if r = .rsp then .address 0 else .word 0
  memory := fun a => if a < 0 then .word w else .word 0
  flags := none

/-- Two calls of `if false { x := 1 } x` with nothing in common but the word that the slot of `x`
holds. -/
theorem exists_sameEnd_of_skipped : ∃ text image s t,
    compile "if false \x7b x := 1 \x7d x" defaultLimit defaultEntry = .ok text ∧
      readText text = some image ∧ s.registers .rax = .word 0 ∧ t.registers .rax = .address 5 ∧
      s.memory (-8) = .word 7 ∧ t.memory (-8) = .address (-8) ∧ SameEnd image s t := by
  obtain ⟨lines, hlines⟩ : ∃ lines, skipped.assemble defaultEntry = .ok lines := ⟨_, rfl⟩
  have hcompile := compile_eq_ok.mpr
    ⟨_, parseSource_skipped, Program.assembly_eq_ok.mpr ⟨_, hlines, rfl⟩⟩
  obtain ⟨p, image, start, hp, hread, -, hends⟩ :=
    sameEnd_of_compile hcompile (by decide) fun l => l.render_ne (by decide)
  cases hp.symm.trans parseSource_skipped
  refine ⟨_, image, { calling 7 with pc := start },
    ⟨start, fun r => if r = .rsp then .address 0 else .address 5,
      fun a => if a = -16 then .word 7 else .address a, some ⟨true, true, true⟩⟩,
    hcompile, hread, rfl, rfl, rfl, rfl, ?_⟩
  refine hends _ _ 0 rfl rfl rfl rfl fun name slot hslot _ => ?_
  rw [slot?_skipped hslot]
  exact ⟨7, rfl, rfl⟩

/-- The program `if false { x := 1 } x` returns what the stack happens to hold. -/
theorem exists_ends_of_skipped : ∃ text image s t, ∃ top : Int,
    compile "if false \x7b x := 1 \x7d x" defaultLimit defaultEntry = .ok text ∧
      readText text = some image ∧ target? image defaultEntry = some s.pc ∧ t.pc = s.pc ∧
      t.registers = s.registers ∧ s.registers .rsp = .address top ∧
      (∀ a, top ≤ a → t.memory a = s.memory a) ∧ Returns image s 0 ∧ Returns image t 1 ∧
      ¬SameEnd image s t := by
  obtain ⟨lines, hlines⟩ : ∃ lines, skipped.assemble defaultEntry = .ok lines := ⟨_, rfl⟩
  obtain ⟨hread, hnodup⟩ :=
    Program.readText_assembly hlines (by decide) fun l _ => l.render_ne (by decide)
  obtain ⟨hstart, hagrees⟩ := Program.agrees_of_assemble hlines rfl hnodup
  have hcall (w : Int64) : Returns (lines.map Line.item ++ [.directive]) (calling w) w := by
    have hw := hagrees (calling w) 0 (fun _ => w) rfl rfl fun name slot hslot => by
      rw [slot?_skipped hslot]
      rfl
    obtain ⟨n, s', hrun, hrax, -⟩ := hw.value 1 w rfl
    exact ⟨n, s', hrun, hrax⟩
  have hcompile := compile_eq_ok.mpr
    ⟨_, parseSource_skipped, Program.assembly_eq_ok.mpr ⟨_, hlines, rfl⟩⟩
  refine ⟨_, _, calling 0, calling 1, 0, hcompile, hread, hstart, rfl, rfl, rfl, fun a ha => ?_,
    hcall 0, hcall 1, (hcall 0).not_sameEnd (hcall 1) (by decide)⟩
  simp [calling, Int.not_lt.mpr ha]

end TinyCompiler
