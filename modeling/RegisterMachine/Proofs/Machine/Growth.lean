import RegisterMachine.Proofs.Machine.Defect
import RegisterMachine.Proofs.Machine.Fuel

/-!
# Growth

A machine embedded in a larger one, which has more registers, a larger stack, and a program that goes on behind the end
of the smaller one.  An instruction that completes on the small machine completes on the large one and does the same
(`Store.transition?_of_embedded`), so the large machine goes along with the small one for as many steps as that executes
instructions (`Machine.Embedded.exists_stepMany?`).  In particular a run that halts cleanly is not changed by more
registers and a larger stack (`Machine.run_of_larger`).
-/

namespace RegisterMachine

open Execution

/-- The store with so many more registers, all of them zero. -/
def Store.widened (extra : Nat) (store : Store) : Store :=
  { store with registers := store.registers ++ Array.replicate extra 0 }

@[simp] theorem Store.widened_zero (store : Store) : store.widened 0 = store := by
  rw [widened, Array.replicate_zero, Array.append_empty]

variable {small large : Layout} {store : Store} {extra : Nat}

namespace Instruction

/-- Operands are read from the front. -/
theorem ofOperands?_append {op : Opcode} {bytes rest : List UInt8} {instruction : Instruction}
    (h : ofOperands? op bytes = some (instruction, rest)) (tail : List UInt8) :
    ofOperands? op (bytes ++ tail) = some (instruction, rest ++ tail) := by
  obtain ⟨rfl, rfl⟩ := eq_of_ofOperands? h
  rw [List.append_assoc]
  exact ofOperands?_operands instruction (rest ++ tail)

private theorem getD_append_left {registers : Array Word} {index : Nat} (h : index < registers.size)
    (more : Array Word) : (registers ++ more).getD index 0 = registers.getD index 0 := by
  rw [Array.getD_eq_getD_getElem?, Array.getD_eq_getD_getElem?, Array.getElem?_append_left h]

/-- Registers behind those that an instruction names have no part in it. -/
theorem perform_widened {instruction : Instruction} (h : instruction.missing? store.registers.size = none) :
    instruction.perform (store.widened extra) = (instruction.perform store).widened extra := by
  rw [missing?_eq_none_iff] at h
  cases instruction with
  | noop => rfl
  | setReg dest value =>
    have hdest := h dest (by simp [named])
    simp only [perform, update, output, Store.widened, Array.setIfInBounds_append_left hdest]
  | copyReg dest source | xor dest source =>
    have hsource := h source (by simp [named])
    have hdest := h dest (by simp [named])
    simp only [perform, update, output, Store.widened, getD_append_left hsource, getD_append_left hdest,
      Array.setIfInBounds_append_left hdest]
  | push source =>
    have hsource := h source (by simp [named])
    simp only [perform, update, output, Store.widened, getD_append_left hsource]

/-- An instruction that completes does so wherever it stands, and with more registers and more room on the stack. -/
theorem fault?_widened {instruction : Instruction} {address : Int} (hroom : small.capacity ≤ large.capacity)
    (h : instruction.fault? small address store = none) (other : Int) (extra : Nat) :
    instruction.fault? large other (store.widened extra) = none := by
  rw [fault?_eq_none_iff, missing?_eq_none_iff] at h ⊢
  obtain ⟨hnamed, hoverflow⟩ := h
  refine ⟨?_, ?_⟩
  · intro register hregister
    have hlt := hnamed register hregister
    rw [Store.widened, Array.size_append]
    omega
  · cases instruction with
    | push source =>
      simp only [overflow?, ite_eq_right_iff, reduceCtorEq, imp_false, Nat.not_lt] at hoverflow ⊢
      exact Nat.le_trans hoverflow hroom
    | _ => rfl

end Instruction

/-- A transition without a fault is one of the larger machine, and does the same to what both have. -/
theorem Store.transition?_of_embedded {rest left : List UInt8} {grown : Store}
    (hroom : small.capacity ≤ large.capacity) (hpushed : store.pushed.length ≤ small.capacity)
    (h : store.transition? small rest = some ⟨left, grown, none⟩) (extra : Nat) (tail : List UInt8) :
    (store.widened extra).transition? large (rest ++ tail) = some ⟨left ++ tail, grown.widened extra, none⟩ := by
  cases rest using Listing.ofBytes.induct with
  | case1 => cases h
  | case2 byte bytes hop =>
    rw [transition?_of_unassigned small store hop] at h
    cases h
  | case3 byte bytes op hop hread =>
    rw [transition?_of_cutShort small store hop hread] at h
    cases h
  | case4 byte bytes op hop instruction behind hread =>
    rw [transition?_of_instruction small store hop hread, Option.some.injEq, Transition.mk.injEq] at h
    obtain ⟨rfl, rfl, hfault⟩ := h
    have hlarge := Instruction.fault?_widened hroom hfault
      (large.instructionsEnd - ((bytes ++ tail).length + 1 : Nat)) extra
    have hfits : (store.widened extra).pushed.length ≤ large.capacity := Nat.le_trans hpushed hroom
    rw [List.cons_append, transition?_of_instruction large _ hop (Instruction.ofOperands?_append hread tail), hlarge,
      Instruction.effect_of_completes hpushed hfault, Instruction.effect_of_completes hfits hlarge,
      Instruction.perform_widened (Instruction.fault?_eq_none_iff.1 hfault).1]

namespace Machine

/-- The second machine runs a program in which the tail follows on what the first one has still to fetch.  It holds the
same, and has so many registers more. -/
def Embedded (small large : Layout) (program longer : Array UInt8) (tail : List UInt8) (extra : Nat)
    (here there : Machine) : Prop :=
  ∃ rest store, here.Matches program small rest store ∧
    there.Matches longer large (rest ++ tail) (store.widened extra)

namespace Embedded

variable {program longer : Array UInt8} {tail : List UInt8} {here there next : Machine} {count : Nat}

theorem exists_run_step (hroom : small.capacity ≤ large.capacity)
    (h : Embedded small large program longer tail extra here there) (hstep : step.run here = .ok .executed next) :
    ∃ other, step.run there = .ok .executed other ∧ Embedded small large program longer tail extra next other := by
  obtain ⟨rest, store, hhere, hthere⟩ := h
  have hone := hhere.run_step
  have htwo := hthere.run_step
  cases htransition : store.transition? small rest with
  | none =>
    rw [htransition] at hone
    cases hone.symm.trans hstep
  | some transition =>
    rw [htransition] at hone
    obtain ⟨last, hrun, hlast⟩ := hone
    obtain ⟨left, grown, fault?⟩ := transition
    cases fault? with
    | some fault => cases hrun.symm.trans hstep
    | none =>
      cases hrun.symm.trans hstep
      rw [Store.transition?_of_embedded hroom hhere.pushed_le htransition] at htwo
      obtain ⟨other, hrun', hother⟩ := htwo
      exact ⟨other, hrun', left, grown, hlast, hother⟩

/-- The larger machine goes along as long as the smaller one executes instructions. -/
theorem exists_stepMany? (hroom : small.capacity ≤ large.capacity)
    (h : Embedded small large program longer tail extra here there) (hsteps : here.stepMany? count = some next) :
    ∃ other, there.stepMany? count = some other ∧ Embedded small large program longer tail extra next other := by
  induction count generalizing here there with
  | zero =>
    cases hsteps
    exact ⟨there, rfl, h⟩
  | succ count ih =>
    obtain ⟨middle, hrun, hmiddle⟩ := stepMany?_succ_eq_some_iff.1 hsteps
    obtain ⟨other, hrun', hother⟩ := h.exists_run_step hroom hrun
    obtain ⟨last, hlast, hembedded⟩ := ih hother hmiddle
    exact ⟨last, stepMany?_succ_eq_some_iff.2 ⟨other, hrun', hlast⟩, hembedded⟩

end Embedded

/-- Two machines built for one program at the same places, the second with at least as many registers and as large a
stack. -/
theorem embedded_of_build {program : Array UInt8} {first second : Config} {here there : Machine}
    (hoffset : second.instructionOffset = first.instructionOffset)
    (hstack : second.stackOffset = first.stackOffset) (hcount : first.registerCount ≤ second.registerCount)
    (hhere : Machine.build program first = .ok here) (hthere : Machine.build program second = .ok there) :
    Embedded here.memory.layout there.memory.layout program program []
        (second.registerCount.toNat - first.registerCount.toNat) here there ∧
      there.memory.layout.instructionsStart = here.memory.layout.instructionsStart ∧
      there.memory.layout.instructionsEnd = here.memory.layout.instructionsEnd ∧
      there.memory.layout.stackBase = here.memory.layout.stackBase := by
  have hone := matches_of_build hhere
  have htwo := matches_of_build hthere
  refine ⟨⟨_, _, hone, ?_⟩, ?_⟩
  · have hregisters : (Store.initial first.registerCount.toNat).widened
        (second.registerCount.toNat - first.registerCount.toNat) = .initial second.registerCount.toNat := by
      have hle : first.registerCount.toNat ≤ second.registerCount.toNat := hcount
      simp only [Store.initial, Store.widened, Array.replicate_append_replicate]
      rw [Nat.add_sub_cancel' hle]
    rw [List.append_nil, hregisters]
    exact htwo
  · obtain ⟨-, layout, hlayout, rfl⟩ := build_eq_ok_iff.1 hhere
    obtain ⟨-, layout', hlayout', rfl⟩ := build_eq_ok_iff.1 hthere
    obtain ⟨-, rfl⟩ := Layout.ofConfig_eq_ok_iff.1 hlayout
    obtain ⟨-, rfl⟩ := Layout.ofConfig_eq_ok_iff.1 hlayout'
    simp only [Layout.placed, hoffset, hstack, and_self]

/-- Both machines hold the same in memory where they run the same program and hold the same store. -/
theorem read_eq_of_matches {program : Array UInt8} {one two : Layout} {rest : List UInt8} {store other : Store}
    {here there : Machine} (hhere : here.Matches program one rest store) (hthere : there.Matches program two rest other)
    (hpushed : other.pushed = store.pushed) (hstart : two.instructionsStart = one.instructionsStart)
    (hend : two.instructionsEnd = one.instructionsEnd) (hbase : two.stackBase = one.stackBase) (address : Int) :
    there.memory.read address = here.memory.read address := by
  rw [Memory.read_eq_found hthere.memory_fits, Memory.read_eq_found hhere.memory_fits, hthere.contents_eq,
    hhere.contents_eq, hpushed, hstart, hend, hbase]

/-- More registers and a larger stack never change a run that halts cleanly.  It halts cleanly on the larger machine as
well, after as many steps, with the same pointers and the same bytes in all of memory; the registers that both have
hold the same, and the others are zero.  The two machines need not leave the same gap in front of the heap. -/
theorem run_of_larger {program : Array UInt8} {first second : Config} {one two last : Machine}
    (hoffset : second.instructionOffset = first.instructionOffset)
    (hstack : second.stackOffset = first.stackOffset) (hcount : first.registerCount ≤ second.registerCount)
    (hsize : first.stackSize ≤ second.stackSize) (hone : Machine.build program first = .ok one)
    (htwo : Machine.build program second = .ok two) (hrun : runToHalt.run one = .ok () last) :
    ∃ other, runToHalt.run two = .ok () other ∧
      two.stepsToHalt = one.stepsToHalt ∧
      other.instructionPointer = last.instructionPointer ∧
      other.stackTop = last.stackTop ∧
      (∀ address, other.memory.read address = last.memory.read address) ∧
      last.registers.size = first.registerCount.toNat ∧
      other.registers =
        last.registers ++ Array.replicate (second.registerCount.toNat - first.registerCount.toNat) 0 := by
  obtain ⟨hembedded, hstart, hend, hbase⟩ := embedded_of_build hoffset hstack hcount hone htwo
  have hroom : one.memory.layout.capacity ≤ two.memory.layout.capacity := by
    rw [capacity_of_build hone, capacity_of_build htwo]
    exact Nat.succ_le_succ hsize
  obtain ⟨count, stop, fault?, final, hsteps, hstop⟩ := exists_stop one
  have hended := run_runToHalt_of_stop hsteps hstop
  rw [hrun] at hended
  cases fault? with
  | some fault => cases hended
  | none =>
    cases hended
    obtain ⟨hhalted, rfl⟩ := isHalted_of_run_step hstop
    obtain ⟨other, hsteps', rest, store, hlast, hother⟩ := hembedded.exists_stepMany? hroom hsteps
    -- The small machine has fetched its program, which is all that the large one has.
    cases hlast.isHalted_iff.1 hhalted
    rw [List.append_nil] at hother
    have hstop' : step.run other = ended none .halted other := run_step_of_isHalted (hother.isHalted_iff.2 rfl)
    have hcounted := doesSteps_runToHalt one
    rw [hrun] at hcounted
    obtain ⟨left, grown, hgrown, -, hprecedes⟩ := (matches_of_build hone).exists_of_steps hcounted
    refine ⟨other, run_runToHalt_of_stop hsteps' hstop', ?_, ?_, ?_, ?_, ?_, ?_⟩
    · rw [stepsToHalt_of_stop hsteps' hstop', stepsToHalt_of_stop hsteps hstop]
    · rw [hother.instructionPointer_eq, hlast.instructionPointer_eq, hend]
    · rw [hother.stackTop_eq, hlast.stackTop_eq, hbase]
      rfl
    · exact read_eq_of_matches hlast hother rfl hstart hend hbase
    · rw [hgrown.registers_eq, hprecedes.size_registers, Store.initial, Array.size_replicate]
    · rw [hother.registers_eq, hlast.registers_eq]
      rfl

/-- The small stack is full at the end, and the large one is not. -/
theorem run_of_larger_full_stack :
    ∃ one two other, Machine.build #[1, 1, 7, 2, 0, 0, 8, 1, 2, 0, 1] { registerCount := 2, stackSize := 3 } = .ok one ∧
      Machine.build #[1, 1, 7, 2, 0, 0, 8, 1, 2, 0, 1] { registerCount := 5, stackSize := 9 } = .ok two ∧
      runToHalt.run two = .ok () other ∧ two.stepsToHalt = one.stepsToHalt ∧
      other.registers = #[519, 519, 0, 0, 0] ∧ other.stackTop = 2147482619 ∧
      other.memory.read 2147482622 = .ok 2 ∧ other.memory.read 2147482619 = .error (.unmapped 2147482619) := by
  obtain ⟨one, hone⟩ : ∃ one,
      Machine.build #[1, 1, 7, 2, 0, 0, 8, 1, 2, 0, 1] { registerCount := 2, stackSize := 3 } = .ok one := ⟨_, rfl⟩
  obtain ⟨two, htwo⟩ : ∃ two,
      Machine.build #[1, 1, 7, 2, 0, 0, 8, 1, 2, 0, 1] { registerCount := 5, stackSize := 9 } = .ok two := ⟨_, rfl⟩
  have hclean : one.answer .run = .ok .run := by
    cases hone
    decide +kernel
  have hafter : (runToHalt.after one).registers = #[519, 519] ∧ (runToHalt.after one).stackTop = 2147482619 ∧
      (runToHalt.after one).memory.read 2147482622 = .ok 2 ∧
      (runToHalt.after one).memory.read 2147482619 = .error (.unmapped 2147482619) := by
    cases hone
    decide +kernel
  obtain ⟨last, hrun⟩ := exists_run_runToHalt_of_answer hclean
  rw [after_of_ok hrun] at hafter
  obtain ⟨hregisters, htop, hlow, hbelow⟩ := hafter
  obtain ⟨other, hother, hsteps, -, hotherTop, hread, -, hotherRegisters⟩ :=
    run_of_larger (by decide) (by decide) (by decide) (by decide) hone htwo hrun
  refine ⟨one, two, other, hone, htwo, hother, hsteps, ?_, hotherTop.trans htop, (hread _).trans hlow,
    (hread _).trans hbelow⟩
  rw [hotherRegisters, hregisters]
  rfl

end Machine

end RegisterMachine
