import Mathlib.Logic.Relation
import RegisterMachine.Machine.Run
import RegisterMachine.Proofs.Action

/-!
# Calls

What a user can ask of a machine: one step, a run to its halt, or a run of limited length, again and again and also
after a fault.  A call does nothing but steps, and it faults exactly where one of them does (`doesSteps_action`), so
what every step keeps is kept by all calls together (`Machine.steps_afterCalls`).  The steps of a call can be counted,
also those that fault (`Machine.afterCalls_eq_afterSteps`).
-/

namespace RegisterMachine

open Execution

inductive Call where
  | step
  | run
  | runFor (fuel : Nat)
deriving DecidableEq, Repr

/-- What a call returns that ends in no fault. -/
inductive Call.Answer where
  | step (did : Step)
  | run
  | runFor (outcome : RunOutcome)
deriving DecidableEq, Repr

def Call.action : Call → Execution Call.Answer
  | step => return .step (← Execution.step)
  | run => do
    runToHalt
    return .run
  | runFor fuel => return .runFor (← Execution.runFor fuel)

namespace Machine

/-- The machine behind one call after the other, whatever they return. -/
def afterCalls (machine : Machine) (calls : List Call) : Machine :=
  calls.foldl (fun machine call => call.action.after machine) machine

@[simp] theorem afterCalls_nil (machine : Machine) : machine.afterCalls [] = machine := rfl

@[simp] theorem afterCalls_cons (machine : Machine) (call : Call) (calls : List Call) :
    machine.afterCalls (call :: calls) = (call.action.after machine).afterCalls calls := rfl

/-- The second machine is the first one some steps later.  A step that faults is a step. -/
def Steps : Machine → Machine → Prop := Relation.ReflTransGen fun before after => after = step.after before

end Machine

namespace Execution

variable {α β : Type}

/-- The action does nothing but steps.  If it faults, it stops behind the step that does. -/
def DoesSteps (action : Execution α) : Prop :=
  ∀ machine, match action.run machine with
    | .ok _ last => machine.Steps last
    | .error fault last => ∃ before, machine.Steps before ∧ step.run before = .error fault last

theorem DoesSteps.pure (value : α) : DoesSteps (Pure.pure value : Execution α) :=
  fun _ => Relation.ReflTransGen.refl

theorem DoesSteps.bind {action : Execution α} {next : α → Execution β} (h : DoesSteps action)
    (hnext : ∀ value, DoesSteps (next value)) : DoesSteps (action >>= next) := by
  intro machine
  have hfirst := h machine
  cases hrun : action.run machine with
  | error fault last =>
    rw [hrun] at hfirst
    rw [run_bind_of_error hrun]
    exact hfirst
  | ok value middle =>
    rw [hrun] at hfirst
    rw [run_bind_of_ok hrun]
    have hsecond := hnext value middle
    cases hlast : (next value).run middle with
    | ok result last =>
      rw [hlast] at hsecond
      exact hfirst.trans hsecond
    | error fault last =>
      rw [hlast] at hsecond
      obtain ⟨before, hbefore, hfault⟩ := hsecond
      exact ⟨before, hfirst.trans hbefore, hfault⟩

theorem doesSteps_step : DoesSteps step := by
  intro machine
  cases hrun : step.run machine with
  | ok did last =>
    refine .single ?_
    rw [after, hrun]
  | error fault last => exact ⟨machine, .refl, hrun⟩

theorem doesSteps_runToHalt : DoesSteps runToHalt := by
  intro machine
  induction hremaining : machine.remaining using Nat.strongRecOn generalizing machine with
  | ind remaining ih =>
    have hstep := doesSteps_step machine
    rw [run_runToHalt]
    cases hrun : step.run machine with
    | error fault last => exact ⟨machine, .refl, hrun⟩
    | ok did next =>
      rw [hrun] at hstep
      cases did with
      | halted => exact hstep
      | executed =>
        -- The run behind an executed instruction has fewer bytes left to fetch.
        have hothers := ih next.remaining (hremaining ▸ remaining_lt_of_step hrun) next rfl
        dsimp only
        cases hlast : runToHalt.run next with
        | ok value last =>
          rw [hlast] at hothers
          exact hstep.trans hothers
        | error fault last =>
          rw [hlast] at hothers
          obtain ⟨before, hbefore, hfault⟩ := hothers
          exact ⟨before, hstep.trans hbefore, hfault⟩

theorem doesSteps_runFor (fuel : Nat) : DoesSteps (runFor fuel) := by
  induction fuel with
  | zero =>
    have hget : DoesSteps (get : Execution Machine) := fun _ => Relation.ReflTransGen.refl
    refine hget.bind fun machine => ?_
    cases machine.isHalted with
    | true => exact .pure _
    | false => exact .pure _
  | succ fuel ih =>
    refine doesSteps_step.bind fun did => ?_
    cases did with
    | halted => exact .pure _
    | executed => exact ih.bind fun outcome => .pure _

theorem doesSteps_action (call : Call) : DoesSteps call.action := by
  cases call with
  | step => exact doesSteps_step.bind fun _ => .pure _
  | run => exact doesSteps_runToHalt.bind fun _ => .pure _
  | runFor fuel => exact (doesSteps_runFor fuel).bind fun _ => .pure _

end Execution

namespace Machine

private theorem steps_after {α : Type} {action : Execution α} (h : DoesSteps action) (machine : Machine) :
    machine.Steps (action.after machine) := by
  have hsteps := h machine
  unfold after
  cases hrun : action.run machine with
  | ok value last =>
    rw [hrun] at hsteps
    exact hsteps
  | error fault last =>
    rw [hrun] at hsteps
    obtain ⟨before, hbefore, hfault⟩ := hsteps
    refine hbefore.tail ?_
    rw [after, hfault]

theorem steps_afterCalls (machine : Machine) (calls : List Call) : machine.Steps (machine.afterCalls calls) := by
  induction calls generalizing machine with
  | nil => exact .refl
  | cons call calls ih => exact (steps_after (doesSteps_action call) machine).trans (ih _)

/-! ### Counting steps -/

/-- The machine the given number of steps later, whatever the steps end in. -/
def afterSteps : Nat → Machine → Machine
  | 0, machine => machine
  | count + 1, machine => (step.after machine).afterSteps count

theorem afterSteps_add (first second : Nat) (machine : Machine) :
    machine.afterSteps (first + second) = (machine.afterSteps first).afterSteps second := by
  induction first generalizing machine with
  | zero => rw [Nat.zero_add, afterSteps]
  | succ first ih => rw [Nat.succ_add, afterSteps, ih, afterSteps]

/-- The number of steps of a run, of which the last one halts or faults. -/
def stepsToHalt (machine : Machine) : Nat :=
  match _ : step.run machine with
  | .ok .halted _ => 1
  | .ok .executed next => next.stepsToHalt + 1
  | .error _ _ => 1
termination_by machine.remaining
decreasing_by exact remaining_lt_of_step ‹_›

theorem stepsToHalt_eq (machine : Machine) : machine.stepsToHalt =
    match step.run machine with
    | .ok .halted _ => 1
    | .ok .executed next => next.stepsToHalt + 1
    | .error _ _ => 1 := by
  rw [stepsToHalt]
  split <;> simp_all

/-- The number of steps of a limited run. -/
def stepsFor : Nat → Machine → Nat
  | 0, _ => 0
  | fuel + 1, machine =>
    match step.run machine with
    | .ok .halted _ => 1
    | .ok .executed next => next.stepsFor fuel + 1
    | .error _ _ => 1

/-- The number of steps of a call. -/
def stepsOf (machine : Machine) : Call → Nat
  | .step => 1
  | .run => machine.stepsToHalt
  | .runFor fuel => machine.stepsFor fuel

/-- The number of steps of one call after the other. -/
def stepsOfCalls (machine : Machine) : List Call → Nat
  | [] => 0
  | call :: calls => machine.stepsOf call + (call.action.after machine).stepsOfCalls calls

theorem after_runToHalt (machine : Machine) : runToHalt.after machine = machine.afterSteps machine.stepsToHalt := by
  fun_induction stepsToHalt machine with
  | case1 machine last hrun =>
    rw [afterSteps, afterSteps, after_of_ok hrun, after, run_runToHalt, hrun]
  | case2 machine next hrun ih =>
    rw [afterSteps, after_of_ok hrun, ← ih, after, run_runToHalt, hrun, after]
  | case3 machine fault last hrun =>
    rw [afterSteps, afterSteps, after_of_error hrun, after, run_runToHalt, hrun]

/-- What is made of the value of an action changes no machine. -/
private theorem after_bind_pure {α β : Type} (action : Execution α) (f : α → β) (machine : Machine) :
    (action >>= fun value => pure (f value)).after machine = action.after machine := by
  cases hrun : action.run machine with
  | ok value last =>
    rw [after_of_ok hrun, after, run_bind_of_ok hrun]
    rfl
  | error fault last => rw [after_of_error hrun, after, run_bind_of_error hrun]

theorem run_runFor_zero (machine : Machine) :
    (runFor 0).run machine = .ok (if machine.isHalted then .halted 0 else .outOfFuel) machine := by
  rw [runFor]
  cases hhalted : machine.isHalted <;> simp [hhalted]

theorem after_runFor (fuel : Nat) (machine : Machine) :
    (runFor fuel).after machine = machine.afterSteps (machine.stepsFor fuel) := by
  induction fuel generalizing machine with
  | zero =>
    rw [stepsFor, afterSteps, after_of_ok (run_runFor_zero machine)]
  | succ fuel ih =>
    rw [stepsFor, runFor]
    cases hrun : step.run machine with
    | error fault last => rw [after, run_bind_of_error hrun, afterSteps, afterSteps, after_of_error hrun]
    | ok did next =>
      rw [after, run_bind_of_ok hrun]
      cases did with
      | halted =>
        rw [afterSteps, afterSteps, after_of_ok hrun]
        rfl
      | executed =>
        rw [afterSteps, after_of_ok hrun, ← ih]
        exact after_bind_pure (runFor fuel) RunOutcome.afterStep next

theorem after_action (call : Call) (machine : Machine) :
    call.action.after machine = machine.afterSteps (machine.stepsOf call) := by
  cases call with
  | step => exact after_bind_pure Execution.step Call.Answer.step machine
  | run => exact (after_bind_pure runToHalt (fun _ => Call.Answer.run) machine).trans (after_runToHalt machine)
  | runFor fuel =>
    exact (after_bind_pure (Execution.runFor fuel) Call.Answer.runFor machine).trans (after_runFor fuel machine)

/-- Calls do as many steps as they count. -/
theorem afterCalls_eq_afterSteps (machine : Machine) (calls : List Call) :
    machine.afterCalls calls = machine.afterSteps (machine.stepsOfCalls calls) := by
  induction calls generalizing machine with
  | nil => rfl
  | cons call calls ih => rw [afterCalls_cons, ih, stepsOfCalls, afterSteps_add, after_action]

end Machine

end RegisterMachine
