import RegisterMachine.Machine.Progress

/-!
# Runs

A machine is run until it halts or an instruction fails, or for a limited number of steps.
-/

namespace RegisterMachine

/-- How a limited run ended. -/
inductive RunOutcome where
  | halted (steps : Nat)
  | outOfFuel
deriving DecidableEq, Repr

/-- The outcome of a run that executes one more instruction at the start. -/
def RunOutcome.afterStep : RunOutcome → RunOutcome
  | halted steps => halted (steps + 1)
  | outOfFuel => outOfFuel

namespace Execution

/-- Executes instructions until the machine has halted. -/
def runToHalt : Execution Unit := fun machine =>
  match _ : step.run machine with
  | .ok .halted last => .ok () last
  | .ok .executed next => runToHalt next
  | .error fault last => .error fault last
termination_by machine => machine.remaining
decreasing_by exact remaining_lt_of_step ‹_›

theorem run_runToHalt (machine : Machine) : runToHalt.run machine =
    match step.run machine with
    | .ok .halted last => .ok () last
    | .ok .executed next => runToHalt.run next
    | .error fault last => .error fault last := by
  unfold EStateM.run
  rw [runToHalt]
  split <;> simp_all [EStateM.run]

/-- Executes at most the given number of instructions. -/
def runFor : Nat → Execution RunOutcome
  | 0 => do
    if (← get).isHalted then return .halted 0
    else return .outOfFuel
  | fuel + 1 => do
    match ← step with
    | .halted => return .halted 0
    | .executed => return (← runFor fuel).afterStep

end Execution

end RegisterMachine
