import RegisterMachine.Proofs.Machine.Fuel

/-!
# More fuel

A limited run that faults or halts does not depend on the fuel that is left (`Machine.run_runFor_add_of_ended`).  One that
is out of fuel has executed an instruction for each unit of it and has not halted (`Machine.run_runFor_eq_outOfFuel_iff`).
It can therefore be split anywhere: what is left of it starts where its first part is out of fuel (`Machine.runFor_add`).
-/

namespace RegisterMachine

namespace Machine

open Execution

variable {machine last : Machine} {fuel steps : Nat} {fault? : Option Fault}

theorem run_runFor_eq_outOfFuel_iff : (runFor fuel).run machine = .ok .outOfFuel last ↔
    machine.stepMany? fuel = some last ∧ last.isHalted = false := by
  constructor
  · intro h
    obtain ⟨count, stop, fault?, other, -, -, hrun⟩ | ⟨middle, hsteps, hhalted⟩ := exists_stop_or_stepMany? machine fuel
    · have hended := hrun 0
      rw [Nat.add_zero, h] at hended
      cases fault? <;> cases hended
    · rw [run_runFor_of_not_isHalted hsteps hhalted] at h
      cases h
      exact ⟨hsteps, hhalted⟩
  · rintro ⟨hsteps, hhalted⟩
    exact run_runFor_of_not_isHalted hsteps hhalted

theorem run_runFor_add_of_ended (h : (runFor fuel).run machine = ended fault? (.halted steps) last) (more : Nat) :
    (runFor (fuel + more)).run machine = ended fault? (.halted steps) last := by
  obtain ⟨count, stop, other?, other, -, -, hrun⟩ | ⟨middle, hsteps, hhalted⟩ := exists_stop_or_stepMany? machine fuel
  · rw [hrun more, ← hrun 0, Nat.add_zero, h]
  · rw [run_runFor_of_not_isHalted hsteps hhalted] at h
    cases fault? <;> cases h

/-- Fuel composes, from any machine.  A limited run that faults or halts does the same with more fuel and leaves the same
machine behind.  One that is out of fuel, and is given more, ends as it does with all fuel at once, where the steps of a
run that halts are counted from the first one on.  A run is out of fuel if and only if it has executed an instruction for
each unit of fuel and the machine has not halted. -/
theorem runFor_add (machine : Machine) (first second : Nat) :
    (∀ fault last, (runFor first).run machine = .error fault last →
      (runFor (first + second)).run machine = .error fault last) ∧
    (∀ steps last, (runFor first).run machine = .ok (.halted steps) last →
      (runFor (first + second)).run machine = .ok (.halted steps) last) ∧
    (∀ middle, (runFor first).run machine = .ok .outOfFuel middle →
      (runFor (first + second)).run machine =
        match (runFor second).run middle with
        | .error fault last => .error fault last
        | .ok (.halted steps) last => .ok (.halted (first + steps)) last
        | .ok .outOfFuel last => .ok .outOfFuel last) ∧
    ∀ last, (runFor first).run machine = .ok .outOfFuel last ↔
      machine.stepMany? first = some last ∧ last.isHalted = false := by
  refine ⟨?_, ?_, ?_, fun last => run_runFor_eq_outOfFuel_iff⟩
  · intro fault last h
    have hended : (runFor first).run machine = ended (some fault) (.halted 0) last := h
    exact run_runFor_add_of_ended hended second
  · intro steps last h
    have hended : (runFor first).run machine = ended none (.halted steps) last := h
    exact run_runFor_add_of_ended hended second
  · intro middle h
    obtain ⟨hsteps, -⟩ := run_runFor_eq_outOfFuel_iff.1 h
    obtain ⟨fault?, outcome, last, hrun⟩ := exists_eq_ended .outOfFuel ((runFor second).run middle)
    rw [run_runFor_add_of_stepMany? hsteps hrun, hrun]
    rcases fault? with _ | fault
    · cases outcome <;> rfl
    · rfl

/-- The second instruction faults.  With fuel for one the run stops in front of it, and more fuel brings the same fault.
Behind the fault an instruction is left, and the run that executes it halts with the fuel for it or more. -/
theorem runFor_add_around_fault :
    ∃ machine middle faulted last, Machine.build #[0, 9, 0] {} = .ok machine ∧
      (runFor 2).run machine = .error (.invalidOpcode 9 1025) faulted ∧
      (runFor (2 + 3)).run machine = .error (.invalidOpcode 9 1025) faulted ∧
      (runFor 1).run machine = .ok .outOfFuel middle ∧ machine.stepMany? 1 = some middle ∧
      (runFor 1).run middle = .error (.invalidOpcode 9 1025) faulted ∧
      (runFor 1).run faulted = .ok (.halted 1) last ∧ (runFor (1 + 3)).run faulted = .ok (.halted 1) last := by
  obtain ⟨machine, h⟩ : ∃ machine, Machine.build #[0, 9, 0] {} = .ok machine := ⟨_, rfl⟩
  have htwo : machine.answer (.runFor 2) = .error (.invalidOpcode 9 1025) := by
    cases h
    decide +kernel
  have hone : machine.answer (.runFor 1) = .ok (.runFor .outOfFuel) := by
    cases h
    decide +kernel
  have hrest : (machine.afterCalls [.runFor 2]).answer (.runFor 1) = .ok (.runFor (.halted 1)) := by
    cases h
    decide +kernel
  obtain ⟨faulted, hfault⟩ := exists_run_of_answer_error rfl htwo
  obtain ⟨middle, hmiddle⟩ := exists_run_runFor_of_answer hone
  have hfaulted : machine.afterCalls [.runFor 2] = faulted := after_of_error (run_bind_of_error hfault)
  rw [hfaulted] at hrest
  obtain ⟨last, hlast⟩ := exists_run_runFor_of_answer hrest
  obtain ⟨hsame, -, -, -⟩ := runFor_add machine 2 3
  obtain ⟨-, -, hsplit, hlacks⟩ := runFor_add machine 1 1
  obtain ⟨-, hhalted, -, -⟩ := runFor_add faulted 1 3
  obtain ⟨hsteps, -⟩ := (hlacks middle).1 hmiddle
  have hwhole := hsplit middle hmiddle
  rw [hfault] at hwhole
  refine ⟨machine, middle, faulted, last, h, hfault, hsame _ _ hfault, hmiddle, hsteps, ?_, hlast, hhalted _ _ hlast⟩
  rcases hsecond : (runFor 1).run middle with ⟨_ | _, other⟩ | ⟨fault, other⟩
  · simp [hsecond] at hwhole
  · simp [hsecond] at hwhole
  · simpa [hsecond, eq_comm] using hwhole

end Machine

end RegisterMachine
