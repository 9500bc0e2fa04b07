import RegisterMachine.Proofs.Machine.Calls

/-!
# Mirroring

Two machines that are asked the same.  If related machines step alike, up to a translation of faults, and halt
together, they answer all calls alike and stay related (`Mirrors.action`, `Machine.answers_of_mirrors`), because calls
do nothing but steps.
-/

namespace RegisterMachine

open Execution

/-- The same value is returned, or a fault and its translation, and the machines left behind are related. -/
inductive Alike (related : Machine → Machine → Prop) (translate : Fault → Fault) {α : Type} :
    EStateM.Result Fault Machine α → EStateM.Result Fault Machine α → Prop
  | ok {value : α} {one two : Machine} (h : related one two) : Alike related translate (.ok value one) (.ok value two)
  | error {fault : Fault} {one two : Machine} (h : related one two) :
    Alike related translate (.error fault one) (.error (translate fault) two)

/-- On related machines the action ends alike. -/
def Mirrors (related : Machine → Machine → Prop) (translate : Fault → Fault) {α : Type} (action : Execution α) :
    Prop :=
  ∀ ⦃one two : Machine⦄, related one two → Alike related translate (action.run one) (action.run two)

namespace Mirrors

variable {related : Machine → Machine → Prop} {translate : Fault → Fault} {α β : Type}

theorem pure (value : α) : Mirrors related translate (Pure.pure value : Execution α) := fun _ _ h => .ok h

theorem bind {action : Execution α} {next : α → Execution β} (h : Mirrors related translate action)
    (hnext : ∀ value, Mirrors related translate (next value)) : Mirrors related translate (action >>= next) := by
  intro one two hrelated
  have hfirst := h hrelated
  rw [EStateM.run_bind, EStateM.run_bind]
  generalize action.run one = here at hfirst ⊢
  generalize action.run two = there at hfirst ⊢
  cases hfirst with
  | ok hmiddle => exact hnext _ hmiddle
  | error hlast => exact .error hlast

theorem runToHalt (h : Mirrors related translate step) : Mirrors related translate Execution.runToHalt := by
  intro one two hrelated
  induction hremaining : one.remaining using Nat.strongRecOn generalizing one two with
  | ind remaining ih =>
    have hfirst := h hrelated
    rw [run_runToHalt, run_runToHalt]
    have hshorter : ∀ next, step.run one = .ok .executed next → next.remaining < remaining := by
      intro next hrun
      exact hremaining ▸ remaining_lt_of_step hrun
    generalize step.run one = here at hfirst hshorter ⊢
    generalize step.run two = there at hfirst ⊢
    cases hfirst with
    | error hlast => exact .error hlast
    | @ok did next other hnext =>
      cases did with
      | halted => exact .ok hnext
      | executed => exact ih next.remaining (hshorter next rfl) hnext rfl

/-- Related machines run for as many steps. -/
theorem stepsToHalt_eq (h : Mirrors related translate step) {one two : Machine} (hrelated : related one two) :
    two.stepsToHalt = one.stepsToHalt := by
  induction hremaining : one.remaining using Nat.strongRecOn generalizing one two with
  | ind remaining ih =>
    have hfirst := h hrelated
    have hshorter : ∀ next, step.run one = .ok .executed next → next.remaining < remaining := by
      intro next hrun
      exact hremaining ▸ remaining_lt_of_step hrun
    rw [Machine.stepsToHalt_eq one, Machine.stepsToHalt_eq two]
    generalize step.run one = here at hfirst hshorter ⊢
    generalize step.run two = there at hfirst ⊢
    cases hfirst with
    | error hlast => rfl
    | @ok did next other hnext =>
      cases did with
      | halted => rfl
      | executed => exact congrArg (· + 1) (ih next.remaining (hshorter next rfl) hnext rfl)

theorem runFor (h : Mirrors related translate step)
    (hhalted : ∀ one two, related one two → one.isHalted = two.isHalted) (fuel : Nat) :
    Mirrors related translate (Execution.runFor fuel) := by
  induction fuel with
  | zero =>
    intro one two hrelated
    rw [Machine.run_runFor_zero, Machine.run_runFor_zero, hhalted one two hrelated]
    exact .ok hrelated
  | succ fuel ih =>
    refine h.bind fun did => ?_
    cases did with
    | halted => exact .pure _
    | executed => exact ih.bind fun outcome => .pure _

theorem action (h : Mirrors related translate step)
    (hhalted : ∀ one two, related one two → one.isHalted = two.isHalted) (call : Call) :
    Mirrors related translate call.action := by
  cases call with
  | step => exact h.bind fun _ => .pure _
  | run => exact h.runToHalt.bind fun _ => .pure _
  | runFor fuel => exact (h.runFor hhalted fuel).bind fun _ => .pure _

end Mirrors

namespace Machine

/-- What a call returns. -/
def answer (machine : Machine) (call : Call) : Except Fault Call.Answer :=
  match call.action.run machine with
  | .ok answer _ => .ok answer
  | .error fault _ => .error fault

theorem exists_run_runToHalt_of_answer {machine : Machine} (h : machine.answer .run = .ok .run) :
    ∃ last, runToHalt.run machine = .ok () last := by
  cases hrun : runToHalt.run machine with
  | ok value last => exact ⟨last, rfl⟩
  | error fault last =>
    rw [answer, Call.action, run_bind_of_error hrun] at h
    cases h

theorem exists_run_runFor_of_answer {machine : Machine} {fuel : Nat} {outcome : RunOutcome}
    (h : machine.answer (.runFor fuel) = .ok (.runFor outcome)) :
    ∃ last, (Execution.runFor fuel).run machine = .ok outcome last := by
  cases hrun : (Execution.runFor fuel).run machine with
  | ok value last =>
    rw [answer, Call.action, run_bind_of_ok hrun] at h
    cases h
    exact ⟨last, rfl⟩
  | error fault last =>
    rw [answer, Call.action, run_bind_of_error hrun] at h
    cases h

theorem exists_run_of_answer_error {α : Type} {machine : Machine} {call : Call} {action : Execution α}
    {reply : α → Call.Answer} {fault : Fault} (hcall : call.action = action >>= fun value => pure (reply value))
    (h : machine.answer call = .error fault) : ∃ last, action.run machine = .error fault last := by
  cases hrun : action.run machine with
  | ok value last =>
    rw [answer, hcall, run_bind_of_ok hrun] at h
    cases h
  | error other last =>
    rw [answer, hcall, run_bind_of_error hrun] at h
    cases h
    exact ⟨last, rfl⟩

/-- What one call after the other returns. -/
def answers (machine : Machine) : List Call → List (Except Fault Call.Answer)
  | [] => []
  | call :: calls => machine.answer call :: (call.action.after machine).answers calls

theorem answers_of_mirrors {related : Machine → Machine → Prop} {translate : Fault → Fault}
    (h : ∀ call : Call, Mirrors related translate call.action) {one two : Machine} (hrelated : related one two)
    (calls : List Call) :
    two.answers calls = (one.answers calls).map (Except.mapError translate) ∧
      related (one.afterCalls calls) (two.afterCalls calls) := by
  induction calls generalizing one two with
  | nil => exact ⟨rfl, hrelated⟩
  | cons call calls ih =>
    have hcall := h call hrelated
    have hanswer : two.answer call = (one.answer call).mapError translate ∧
        related (call.action.after one) (call.action.after two) := by
      unfold answer after
      generalize call.action.run one = here at hcall ⊢
      generalize call.action.run two = there at hcall ⊢
      cases hcall with
      | ok hlast => exact ⟨rfl, hlast⟩
      | error hlast => exact ⟨rfl, hlast⟩
    obtain ⟨hanswers, hlast⟩ := ih hanswer.2
    refine ⟨?_, hlast⟩
    rw [answers, answers, List.map_cons, hanswer.1, hanswers]

end Machine

end RegisterMachine
