import RegisterMachine.Proofs.Machine.Growth
import RegisterMachine.Proofs.Machine.Relocation

/-!
# Sequence

One program behind another.  As long as the first one lasts, a machine with both runs as one with the first program
alone, which is embedded in it.  From there on it mirrors a machine with the second program alone that took over the
registers and the stack, but for the addresses of instructions (`Machine.run_append`).
-/

namespace RegisterMachine.Machine

open Execution

/-- The machine with the registers and the stack of another one. -/
def takeOver (machine other : Machine) : Machine :=
  { machine with
    memory := { machine.memory with stack := other.memory.stack }
    registers := other.registers
    stackTop := other.stackTop }

/-- A machine that takes over holds what the other one held, and has its own program to fetch. -/
theorem Matches.takeOver {program other : Array UInt8} {one two : Layout} {machine last : Machine}
    {rest left : List UInt8} {store grown : Store} (h : machine.Matches program one rest store)
    (hlast : last.Matches other two left grown) (hbase : one.stackBase = two.stackBase)
    (hcapacity : one.capacity = two.capacity) : (machine.takeOver last).Matches program one rest grown where
  program_eq := h.program_eq
  layout_eq := h.layout_eq
  fits := h.fits
  suffix := h.suffix
  instructionPointer_eq := h.instructionPointer_eq
  registers_eq := hlast.registers_eq
  stackTop_eq := by
    rw [hbase]
    exact hlast.stackTop_eq
  pushed_le := by
    rw [hcapacity]
    exact hlast.pushed_le
  heap_eq := h.heap_eq
  stack_eq := hlast.stack_eq

/-- A machine for the first of two programs, one for the second and one for both differ in where their programs end. -/
theorem exists_build_of_append {front back : Array UInt8} {config : Config} {first whole : Machine}
    (hfirst : Machine.build front config = .ok first) (hwhole : Machine.build (front ++ back) config = .ok whole) :
    ∃ second, Machine.build back config = .ok second ∧
      second.memory.layout.Moved front.size 0 whole.memory.layout ∧
      whole.memory.layout.instructionsStart = first.memory.layout.instructionsStart ∧
      whole.memory.layout.stackBase = first.memory.layout.stackBase ∧
      whole.memory.layout.stackLimit = first.memory.layout.stackLimit := by
  obtain ⟨hcount, layout, hlayout, rfl⟩ := build_eq_ok_iff.1 hwhole
  obtain ⟨-, firstLayout, hfirstLayout, rfl⟩ := build_eq_ok_iff.1 hfirst
  have hsize : (front ++ back).size = front.size + back.size := Array.size_append
  obtain ⟨secondLayout, hsecondLayout, -⟩ := Layout.ofConfig_of_le (by omega : back.size ≤ _) hlayout
  refine ⟨_, build_eq_ok_iff.2 ⟨hcount, secondLayout, hsecondLayout, rfl⟩, ?_⟩
  obtain ⟨-, rfl⟩ := Layout.ofConfig_eq_ok_iff.1 hlayout
  obtain ⟨-, rfl⟩ := Layout.ofConfig_eq_ok_iff.1 hfirstLayout
  obtain ⟨-, rfl⟩ := Layout.ofConfig_eq_ok_iff.1 hsecondLayout
  refine ⟨⟨?_, ?_, ?_⟩, rfl, rfl, rfl⟩ <;> simp only [Layout.placed, hsize] <;> omega

/-- Where the first program has halted, a machine with both has all of the second one to fetch and holds the same. -/
theorem exists_matches_of_halts {front back : Array UInt8} {config : Config} {first whole last : Machine}
    {fuel steps : Nat} (hfirst : Machine.build front config = .ok first)
    (hwhole : Machine.build (front ++ back) config = .ok whole)
    (hhalts : (runFor fuel).run first = .ok (.halted steps) last) :
    ∃ middle store, whole.stepMany? steps = some middle ∧ last.Matches front first.memory.layout [] store ∧
      middle.Matches (front ++ back) whole.memory.layout back.toList store := by
  have hcapacity := capacity_of_build hwhole
  have hcapacityFirst := capacity_of_build hfirst
  obtain ⟨hsteps, hhalted⟩ := stepMany?_of_run_runFor hhalts
  have hembedded : Embedded first.memory.layout whole.memory.layout front (front ++ back) back.toList 0 first whole :=
    ⟨_, _, matches_of_build hfirst, by
      rw [Store.widened_zero, ← Array.toList_append]
      exact matches_of_build hwhole⟩
  obtain ⟨middle, hmiddle, rest, store, hlast, hthere⟩ := hembedded.exists_stepMany? (by omega) hsteps
  cases hlast.isHalted_iff.1 hhalted
  rw [List.nil_append, Store.widened_zero] at hthere
  exact ⟨middle, store, hmiddle, hlast, hthere⟩

/-- Where the first of two programs halts on its own, a machine with both has executed the same instructions and holds
the same: its registers, its pointers and the bytes of its stack.  It goes on as a machine with the second program
that took over the registers and the stack: the run ends after as many more steps, and whatever is asked of the two
machines, they answer alike and hold the same.  Only the addresses of instructions differ, by the length of the first
program. -/
theorem run_append {front back : Array UInt8} {config : Config} {first whole last : Machine} {fuel steps : Nat}
    (hfirst : Machine.build front config = .ok first) (hwhole : Machine.build (front ++ back) config = .ok whole)
    (hhalts : (runFor fuel).run first = .ok (.halted steps) last) :
    ∃ second middle, Machine.build back config = .ok second ∧
      whole.stepMany? steps = some middle ∧
      middle.registers = last.registers ∧
      middle.instructionPointer = last.instructionPointer ∧
      middle.stackTop = last.stackTop ∧
      (∀ depth : Nat, depth ≤ config.stackSize.toNat →
        middle.memory.read (whole.memory.layout.stackBase - depth) =
          last.memory.read (first.memory.layout.stackBase - depth)) ∧
      runToHalt.run whole = runToHalt.run middle ∧
      whole.stepsToHalt = steps + (second.takeOver last).stepsToHalt ∧
      ∀ calls : List Call,
        let here := (second.takeOver last).afterCalls calls
        let there := middle.afterCalls calls
        middle.answers calls =
          ((second.takeOver last).answers calls).map (Except.mapError (Fault.moved front.size 0)) ∧
        there.registers = here.registers ∧
        there.instructionPointer = here.instructionPointer + front.size ∧
        there.stackTop = here.stackTop ∧
        ∀ depth : Nat, depth ≤ config.stackSize.toNat →
          there.memory.read (whole.memory.layout.stackBase - depth) =
            here.memory.read (second.memory.layout.stackBase - depth) := by
  obtain ⟨second, hsecond, hmoved, hstart, hbase, hlimit⟩ := exists_build_of_append hfirst hwhole
  have hcapacity : whole.memory.layout.capacity = config.stackSize.toNat + 1 := capacity_of_build hwhole
  have hcapacityFirst := capacity_of_build hfirst
  have hcapacitySecond := capacity_of_build hsecond
  obtain ⟨middle, store, hmiddle, hlast, hthere⟩ := exists_matches_of_halts hfirst hwhole hhalts
  have htaken := (matches_of_build hsecond).takeOver hlast
    (by rw [← hbase, hmoved.stackBase_eq]; omega) (by omega)
  have habreast : Abreast back (front ++ back) second.memory.layout whole.memory.layout (second.takeOver last) middle :=
    ⟨_, _, htaken, hthere⟩
  have hmirrors : Mirrors (Abreast back (front ++ back) second.memory.layout whole.memory.layout)
    (Fault.moved front.size 0) step := Abreast.mirrors_step hmoved
  refine ⟨second, middle, hsecond, hmiddle, ?_, ?_, ?_, ?_, run_runToHalt_of_stepMany? hmiddle, ?_, ?_⟩
  · rw [hthere.registers_eq, hlast.registers_eq]
  · have hend := hthere.fits.instructionsEnd_eq
    have hendFirst := hlast.fits.instructionsEnd_eq
    rw [hthere.instructionPointer_eq, hlast.instructionPointer_eq, hend, hendFirst, hstart, Array.size_append,
      Array.length_toList, List.length_nil]
    omega
  · rw [hthere.stackTop_eq, hlast.stackTop_eq, hbase]
  · intro depth hdepth
    rw [hthere.read_stack (by omega), hlast.read_stack (by omega), hbase]
  · rw [stepsToHalt_of_stepMany? hmiddle, hmirrors.stepsToHalt_eq habreast]
  · intro calls here there
    obtain ⟨hanswers, hcalls⟩ := answers_of_mirrors
      (Mirrors.action hmirrors fun _ _ => Abreast.isHalted_eq) habreast calls
    have htop := hcalls.stackTop_eq hmoved
    rw [Int.add_zero] at htop
    refine ⟨hanswers, hcalls.registers_eq, hcalls.instructionPointer_eq hmoved, htop, fun depth hdepth => ?_⟩
    obtain ⟨left, grown, hhere, hthere'⟩ := hcalls
    rw [hthere'.read_stack (by omega), hhere.read_stack (by omega), hmoved.stackBase_eq, Int.add_zero]

/-- The second program pushes what the first one loaded, and ends in a byte that is no instruction. -/
theorem run_append_faulting_back :
    ∃ first whole last second middle, Machine.build #[1, 0, 7, 0, 0, 0, 8, 0] { registerCount := 2 } = .ok first ∧
      Machine.build (#[1, 0, 7, 0, 0, 0, 8, 0] ++ #[2, 1, 0, 8, 1, 9]) { registerCount := 2 } = .ok whole ∧
      (runFor 2).run first = .ok (.halted 2) last ∧
      Machine.build #[2, 1, 0, 8, 1, 9] { registerCount := 2 } = .ok second ∧
      whole.stepMany? 2 = some middle ∧ middle.instructionPointer = 1032 ∧ whole.stepsToHalt = 5 ∧
      (second.takeOver last).answers [.run, .step] = [.error (.invalidOpcode 9 1029), .ok (.step .halted)] ∧
      middle.answers [.run, .step] = [.error (.invalidOpcode 9 1037), .ok (.step .halted)] ∧
      (middle.afterCalls [.run, .step]).stackTop = 2147482615 := by
  obtain ⟨first, hfirst⟩ :
      ∃ first, Machine.build #[1, 0, 7, 0, 0, 0, 8, 0] { registerCount := 2 } = .ok first := ⟨_, rfl⟩
  obtain ⟨whole, hwhole⟩ : ∃ whole, Machine.build (#[1, 0, 7, 0, 0, 0, 8, 0] ++ #[2, 1, 0, 8, 1, 9])
      { registerCount := 2 } = .ok whole := ⟨_, rfl⟩
  have hanswer : first.answer (.runFor 2) = .ok (.runFor (.halted 2)) := by
    cases hfirst
    decide +kernel
  obtain ⟨last, hhalts⟩ := exists_run_runFor_of_answer hanswer
  have hlast : last = (runFor 2).after first := (after_of_ok hhalts).symm
  have hpointer : last.instructionPointer = 1032 := by
    rw [hlast]
    cases hfirst
    decide +kernel
  obtain ⟨second, middle, hsecond, hmiddle, -, hmiddlePointer, -, -, -, hsteps, hcalls⟩ :=
    run_append hfirst hwhole hhalts
  have hback : (second.takeOver last).stepsToHalt = 3 ∧
      (second.takeOver last).answers [.run, .step] = [.error (.invalidOpcode 9 1029), .ok (.step .halted)] ∧
      ((second.takeOver last).afterCalls [.run, .step]).stackTop = 2147482615 := by
    rw [hlast]
    cases hfirst
    cases hsecond
    decide +kernel
  obtain ⟨hback, hanswers, htop⟩ := hback
  obtain ⟨halike, -, -, hmiddleTop, -⟩ := hcalls [.run, .step]
  rw [hanswers] at halike
  rw [hback] at hsteps
  exact ⟨first, whole, last, second, middle, hfirst, hwhole, hhalts, hsecond, hmiddle,
    hmiddlePointer.trans hpointer, hsteps, hanswers, halike, hmiddleTop.trans htop⟩

end RegisterMachine.Machine
