import Mathlib.Control.Monad.Basic
import RegisterMachine.Proofs.Machine.Invariant
import RegisterMachine.Proofs.Machine.Mirroring

/-!
# Fuel

A run executes a number of instructions, one step for each, and then a step halts or faults (`Machine.exists_stop`);
it executes no others (`Machine.exists_stepMany?_iff`).  An executed instruction takes at least one byte of the program,
so there are no more of them than bytes left (`Machine.remaining_add_le`).  A limited run with a step for every byte left
therefore ends as the unlimited one does (`Machine.run_runFor_of_remaining_le`, `Machine.runFor_eq_runToHalt`).
-/

namespace RegisterMachine

/-- The outcome of a run that executes so many more instructions at the start. -/
def RunOutcome.afterSteps (count : Nat) : RunOutcome → RunOutcome
  | halted steps => halted (count + steps)
  | outOfFuel => outOfFuel

theorem RunOutcome.afterSteps_zero (outcome : RunOutcome) : outcome.afterSteps 0 = outcome := by
  cases outcome <;> simp [afterSteps]

theorem RunOutcome.afterSteps_succ (outcome : RunOutcome) (count : Nat) :
    outcome.afterSteps (count + 1) = (outcome.afterSteps count).afterStep := by
  cases outcome with
  | halted steps => simp only [afterSteps, afterStep, Nat.add_right_comm]
  | outOfFuel => rfl

namespace Machine

open Execution

variable {machine next middle stop last : Machine} {count steps fuel : Nat} {fault? : Option Fault}

/-! ### Machines that have halted -/

theorem run_step_of_isHalted (h : machine.isHalted = true) : step.run machine = .ok .halted machine := by
  have hfetch : fetch.run machine = .ok none machine := by rw [run_fetch, if_pos h]
  exact run_bind_of_ok hfetch

theorem isHalted_of_run_step (h : step.run machine = .ok .halted last) : machine.isHalted = true ∧ last = machine := by
  cases hhalted : machine.isHalted with
  | true =>
    rw [run_step_of_isHalted hhalted] at h
    cases h
    exact ⟨rfl, rfl⟩
  | false =>
    -- A machine that has not halted finds a byte, and then it executes an instruction or faults.
    simp only [step, EStateM.run_bind, EStateM.run_get, run_fetch, hhalted, Bool.false_eq_true, ↓reduceIte] at h
    cases hread : machine.memory.read machine.instructionPointer with
    | error cause => simp [hread] at h
    | ok byte =>
      cases haddress : address? (machine.instructionPointer + 1) with
      | none => simp [hread, haddress] at h
      | some address =>
        simp only [hread, haddress, EStateM.run_bind] at h
        split at h <;> cases h

theorem isHalted_of_remaining_eq_zero (h : machine.remaining = 0) : machine.isHalted = true := by
  unfold remaining at h
  rw [isHalted, bne_iff_ne, Ne, Layout.regionOf_eq_instructions_iff]
  omega

/-! ### Steps that execute instructions -/

theorem stepMany?_succ_eq_some_iff : machine.stepMany? (count + 1) = some stop ↔
    ∃ next, step.run machine = .ok .executed next ∧ next.stepMany? count = some stop := by
  rw [stepMany?]
  constructor
  · intro h
    split at h
    · rename_i next hrun
      exact ⟨next, hrun, h⟩
    · cases h
  · rintro ⟨next, hrun, h⟩
    rw [hrun]
    exact h

theorem stepMany?_add (first second : Nat) (machine : Machine) :
    machine.stepMany? (first + second) = (machine.stepMany? first).bind (stepMany? second) := by
  induction first generalizing machine with
  | zero => rw [Nat.zero_add, stepMany?, Option.bind_some]
  | succ first ih =>
    rw [Nat.succ_add, stepMany?, stepMany?]
    split
    · exact ih _
    · rfl

/-- Every instruction takes a byte of the program at least. -/
theorem remaining_add_le (h : machine.stepMany? count = some stop) : stop.remaining + count ≤ machine.remaining := by
  induction count generalizing machine with
  | zero =>
    cases h
    exact Nat.le_refl _
  | succ count ih =>
    obtain ⟨next, hrun, hnext⟩ := stepMany?_succ_eq_some_iff.1 h
    have hshorter := remaining_lt_of_step hrun
    have hle := ih hnext
    omega

/-- A run goes on as it does behind its first steps. -/
theorem run_runToHalt_of_stepMany? (h : machine.stepMany? count = some middle) :
    runToHalt.run machine = runToHalt.run middle := by
  induction count generalizing machine with
  | zero =>
    cases h
    rfl
  | succ count ih =>
    obtain ⟨next, hrun, hnext⟩ := stepMany?_succ_eq_some_iff.1 h
    rw [run_runToHalt, hrun]
    exact ih hnext

theorem stepsToHalt_of_stepMany? (h : machine.stepMany? count = some middle) :
    machine.stepsToHalt = count + middle.stepsToHalt := by
  induction count generalizing machine with
  | zero =>
    cases h
    exact (Nat.zero_add _).symm
  | succ count ih =>
    obtain ⟨next, hrun, hnext⟩ := stepMany?_succ_eq_some_iff.1 h
    rw [stepsToHalt_eq, hrun]
    show next.stepsToHalt + 1 = _
    rw [ih hnext, Nat.add_right_comm]

/-! ### Where a run stops -/

/-- Every run comes to a step that executes no instruction. -/
theorem exists_stop (machine : Machine) : ∃ count stop fault? last,
    machine.stepMany? count = some stop ∧ step.run stop = ended fault? .halted last := by
  induction hremaining : machine.remaining using Nat.strongRecOn generalizing machine with
  | ind remaining ih =>
    cases hrun : step.run machine with
    | error fault last => exact ⟨0, machine, some fault, last, rfl, hrun⟩
    | ok did next =>
      cases did with
      | halted => exact ⟨0, machine, none, next, rfl, hrun⟩
      | executed =>
        obtain ⟨count, stop, fault?, last, hsteps, hstop⟩ :=
          ih next.remaining (hremaining ▸ remaining_lt_of_step hrun) next rfl
        exact ⟨count + 1, stop, fault?, last, stepMany?_succ_eq_some_iff.2 ⟨next, hrun, hsteps⟩, hstop⟩

/-- A run executes the instructions up to where it stops and no others. -/
theorem exists_stepMany?_iff (hsteps : machine.stepMany? count = some stop)
    (hstop : step.run stop = ended fault? .halted last) :
    (∃ next, machine.stepMany? steps = some next) ↔ steps ≤ count := by
  constructor
  · rintro ⟨next, hnext⟩
    refine Nat.le_of_not_lt fun hlt => ?_
    obtain ⟨more, rfl⟩ : ∃ more, steps = count + (more + 1) := ⟨steps - count - 1, by omega⟩
    rw [stepMany?_add, hsteps, Option.bind_some, stepMany?_succ_eq_some_iff] at hnext
    obtain ⟨other, hrun, -⟩ := hnext
    rw [hrun] at hstop
    cases fault? <;> cases hstop
  · intro hle
    obtain ⟨more, rfl⟩ := Nat.exists_eq_add_of_le hle
    rw [stepMany?_add] at hsteps
    obtain ⟨next, hnext, -⟩ := Option.bind_eq_some_iff.1 hsteps
    exact ⟨next, hnext⟩

theorem run_runToHalt_of_stop (hsteps : machine.stepMany? count = some stop)
    (hstop : step.run stop = ended fault? .halted last) : runToHalt.run machine = ended fault? () last := by
  rw [run_runToHalt_of_stepMany? hsteps, run_runToHalt, hstop]
  cases fault? <;> rfl

theorem stepsToHalt_of_stop (hsteps : machine.stepMany? count = some stop)
    (hstop : step.run stop = ended fault? .halted last) : machine.stepsToHalt = count + 1 := by
  rw [stepsToHalt_of_stepMany? hsteps, stepsToHalt_eq, hstop]
  cases fault? <;> rfl

/-- A limited run that starts with instructions goes on behind them with the fuel that is left. -/
theorem run_runFor_add_of_stepMany? {outcome : RunOutcome} (hsteps : machine.stepMany? count = some middle)
    (hrun : (runFor fuel).run middle = ended fault? outcome last) :
    (runFor (count + fuel)).run machine = ended fault? (outcome.afterSteps count) last := by
  induction count generalizing machine with
  | zero =>
    cases hsteps
    rw [Nat.zero_add, hrun, RunOutcome.afterSteps_zero]
  | succ count ih =>
    obtain ⟨next, hstep, hnext⟩ := stepMany?_succ_eq_some_iff.1 hsteps
    rw [Nat.succ_add, runFor, run_bind_of_ok hstep, RunOutcome.afterSteps_succ]
    exact run_bind_ended (ih hnext) rfl

/-- With fuel for one more step than there are instructions, a limited run stops where the run does. -/
theorem run_runFor_of_stop (hsteps : machine.stepMany? count = some stop)
    (hstop : step.run stop = ended fault? .halted last) (hfuel : count < fuel) :
    (runFor fuel).run machine = ended fault? (.halted count) last := by
  obtain ⟨more, rfl⟩ := Nat.exists_eq_add_of_lt hfuel
  have hlast : (runFor (more + 1)).run stop = ended fault? (.halted 0) last := by
    rw [runFor]
    exact run_bind_ended hstop rfl
  exact run_runFor_add_of_stepMany? hsteps hlast

/-- A limited run that comes to the end of the program halts there, whether or not fuel is left. -/
theorem run_runFor_of_isHalted (hsteps : machine.stepMany? count = some stop) (hstop : stop.isHalted = true)
    (more : Nat) : (runFor (count + more)).run machine = .ok (.halted count) stop := by
  have hlast : (runFor more).run stop = ended none (.halted 0) stop := by
    cases more with
    | zero =>
      rw [run_runFor_zero, hstop]
      rfl
    | succ more =>
      rw [runFor]
      exact run_bind_of_ok (run_step_of_isHalted hstop)
  exact run_runFor_add_of_stepMany? hsteps hlast

/-- A limited run whose fuel is all used up by instructions is out of fuel, unless they are the last ones. -/
theorem run_runFor_of_not_isHalted (hsteps : machine.stepMany? count = some middle) (hmiddle : middle.isHalted = false) :
    (runFor count).run machine = .ok .outOfFuel middle := by
  have hlast : (runFor 0).run middle = ended none .outOfFuel middle := by
    rw [run_runFor_zero, hmiddle]
    rfl
  exact run_runFor_add_of_stepMany? hsteps hlast

/-- Either a run stops within its fuel, and then in the same way with more of it, or there is an instruction for each
unit of fuel and the program goes on behind them. -/
theorem exists_stop_or_stepMany? (machine : Machine) (fuel : Nat) :
    (∃ count stop fault? last, machine.stepMany? count = some stop ∧ step.run stop = ended fault? .halted last ∧
      ∀ more, (runFor (fuel + more)).run machine = ended fault? (.halted count) last) ∨
    ∃ middle, machine.stepMany? fuel = some middle ∧ middle.isHalted = false := by
  obtain ⟨count, stop, fault?, last, hsteps, hstop⟩ := exists_stop machine
  by_cases hlt : count < fuel
  · refine .inl ⟨count, stop, fault?, last, hsteps, hstop, fun more => ?_⟩
    exact run_runFor_of_stop hsteps hstop (by omega)
  · obtain ⟨middle, hmiddle⟩ := (exists_stepMany?_iff hsteps hstop).2 (Nat.le_of_not_lt hlt)
    cases hhalted : middle.isHalted with
    | true =>
      -- The last unit of fuel is for the last instruction, and no step is left to see the end of the program.
      refine .inl ⟨fuel, middle, none, middle, hmiddle, run_step_of_isHalted hhalted, fun more => ?_⟩
      exact run_runFor_of_isHalted hmiddle hhalted more
    | false => exact .inr ⟨middle, hmiddle, hhalted⟩

/-- A limited run that halts has executed as many instructions as it says. -/
theorem stepMany?_of_run_runFor (h : (runFor fuel).run machine = .ok (.halted count) last) :
    machine.stepMany? count = some last ∧ last.isHalted = true := by
  obtain ⟨steps, stop, fault?, other, hsteps, hstop, hrun⟩ | ⟨middle, hsteps, hhalted⟩ :=
    exists_stop_or_stepMany? machine fuel
  · have hended := hrun 0
    rw [Nat.add_zero, h] at hended
    cases fault? with
    | some fault => cases hended
    | none =>
      cases hended
      obtain ⟨hhalted, rfl⟩ := isHalted_of_run_step hstop
      exact ⟨hsteps, hhalted⟩
  · rw [run_runFor_of_not_isHalted hsteps hhalted] at h
    cases h

/-- With a step for every byte left, a limited run stops where the run does. -/
theorem run_runFor_of_remaining_le (hsteps : machine.stepMany? count = some stop)
    (hstop : step.run stop = ended fault? .halted last) (hfuel : machine.remaining ≤ fuel) :
    (runFor fuel).run machine = ended fault? (.halted count) last := by
  by_cases hlt : count < fuel
  · exact run_runFor_of_stop hsteps hstop hlt
  · -- All fuel is used up by instructions of one byte, and the program ends with it.
    have hle := remaining_add_le hsteps
    have hcount : fuel = count := by omega
    have hhalted : stop.isHalted = true := isHalted_of_remaining_eq_zero (by omega)
    rw [run_step_of_isHalted hhalted] at hstop
    have hrun : (runFor count).run machine = .ok (.halted count) stop := run_runFor_of_isHalted hsteps hhalted 0
    rw [hcount, hrun]
    cases fault? with
    | none =>
      cases hstop
      rfl
    | some fault => cases hstop

theorem Matches.remaining_eq {program : Array UInt8} {layout : Layout} {rest : List UInt8} {store : Store}
    (h : machine.Matches program layout rest store) : machine.remaining = rest.length := by
  rw [remaining, h.layout_eq, h.instructionPointer_eq]
  omega

/-- Whatever was asked of a machine before, a run ends.  It executes some instructions, of which there are at most as
many as bytes left in the program, and then a step halts or faults.  A limited run with at least as many steps as bytes
are left never lacks fuel: it leaves the same machine behind, ends in the same fault, or halts after as many steps as
there are instructions executed. -/
theorem runFor_eq_runToHalt {program : Array UInt8} {config : Config} {machine : Machine}
    (h : Machine.build program config = .ok machine) (calls : List Call) :
    let now := machine.afterCalls calls
    let left := now.memory.layout.instructionsEnd - now.instructionPointer
    ∃ (executed : Nat) (stop last : Machine) (fault? : Option Fault), executed ≤ left ∧
      now.stepMany? executed = some stop ∧ step.run stop = ended fault? .halted last ∧
      runToHalt.run now = ended fault? () last ∧
      ∀ fuel : Nat, left ≤ fuel → (runFor fuel).run now = ended fault? (.halted executed) last := by
  intro now left
  obtain ⟨rest, store, hnow, -, -⟩ := (matches_of_build h).exists_of_steps (steps_afterCalls machine calls)
  have hleft : left = now.remaining := by
    rw [hnow.remaining_eq]
    show now.memory.layout.instructionsEnd - now.instructionPointer = _
    rw [hnow.layout_eq, hnow.instructionPointer_eq]
    omega
  obtain ⟨executed, stop, fault?, last, hsteps, hstop⟩ := exists_stop now
  have hle := remaining_add_le hsteps
  refine ⟨executed, stop, last, fault?, by omega, hsteps, hstop, run_runToHalt_of_stop hsteps hstop, ?_⟩
  intro fuel hfuel
  exact run_runFor_of_remaining_le hsteps hstop (by omega)

/-- Behind a fault two instructions of one byte are left.  Two steps are enough to see that the machine halts. -/
theorem runFor_eq_runToHalt_behind_fault :
    ∃ machine last, Machine.build #[0, 9, 0, 0] {} = .ok machine ∧
      let now := machine.afterCalls [.run]
      now.memory.layout.instructionsEnd - now.instructionPointer = 2 ∧
      runToHalt.run now = .ok () last ∧
      ∀ fuel : Nat, 2 ≤ fuel → (runFor fuel).run now = .ok (.halted 2) last := by
  obtain ⟨machine, h⟩ : ∃ machine, Machine.build #[0, 9, 0, 0] {} = .ok machine := ⟨_, rfl⟩
  have hleft : (machine.afterCalls [.run]).memory.layout.instructionsEnd -
      (machine.afterCalls [.run]).instructionPointer = 2 := by
    cases h
    decide +kernel
  have hanswer : (machine.afterCalls [.run]).answer (.runFor 2) = .ok (.runFor (.halted 2)) := by
    cases h
    decide +kernel
  obtain ⟨executed, stop, last, fault?, -, -, -, hrun, hfuel⟩ := runFor_eq_runToHalt h [.run]
  rw [hleft] at hfuel
  obtain ⟨other, htwo⟩ := exists_run_runFor_of_answer hanswer
  rw [hfuel 2 (by decide)] at htwo
  cases fault? with
  | some fault => cases htwo
  | none =>
    cases htwo
    exact ⟨machine, last, h, hleft, hrun, fun fuel hle => hfuel fuel (by omega)⟩

end Machine

end RegisterMachine
