/-!
# Actions

Runs of actions that keep what they did before an error, and how their results are put together: an action or a check
either meets an error or returns its value (`ended`, `checked`).
-/

namespace RegisterMachine

variable {ε σ α β : Type}

theorem run_bind_of_ok {action : EStateM ε σ α} {next : α → EStateM ε σ β} {value : α} {before after : σ}
    (h : action.run before = .ok value after) : (action >>= next).run before = (next value).run after := by
  rw [EStateM.run_bind, h]

theorem run_bind_of_error {action : EStateM ε σ α} {next : α → EStateM ε σ β} {error : ε} {before after : σ}
    (h : action.run before = .error error after) : (action >>= next).run before = .error error after := by
  rw [EStateM.run_bind, h]

theorem run_tryCatch_of_ok {action : EStateM ε σ α} {handler : ε → EStateM ε σ α} {value : α} {before after : σ}
    (h : action.run before = .ok value after) : (tryCatch action handler).run before = .ok value after := by
  show EStateM.tryCatch (fun _ => action.run before) handler before = _
  rw [h]
  rfl

/-- A handler goes on from what the action did before the error. -/
theorem run_tryCatch_of_error {action : EStateM ε σ α} {handler : ε → EStateM ε σ α} {error : ε}
    {before after : σ} (h : action.run before = .error error after) :
    (tryCatch action handler).run before = (handler error).run after := by
  show EStateM.tryCatch (fun _ => action.run before) handler before = _
  rw [h]
  rfl

/-- How an action ends that returns the value unless it ends in the error. -/
def ended (error : Option ε) (value : α) (last : σ) : EStateM.Result ε σ α :=
  match error with
  | none => .ok value last
  | some error => .error error last

@[simp] theorem ended_none (value : α) (last : σ) : ended (none : Option ε) value last = .ok value last := rfl

@[simp] theorem ended_some (error : ε) (value : α) (last : σ) : ended (some error) value last = .error error last :=
  rfl

/-- An action that ends in an error may as well have been going to return any value. -/
theorem exists_eq_ended (value : α) (result : EStateM.Result ε σ α) :
    ∃ error other last, result = ended error other last := by
  cases result with
  | ok other last => exact ⟨none, other, last, rfl⟩
  | error error last => exact ⟨some error, value, last, rfl⟩

/-- An action goes on unless it ends in the error. -/
theorem run_bind_ended {action : EStateM ε σ α} {next : α → EStateM ε σ β} {error : Option ε} {value : α} {result : β}
    {before after : σ} (h : action.run before = ended error value after)
    (hnext : (next value).run after = .ok result after) :
    (action >>= next).run before = ended error result after := by
  cases error with
  | none => exact (run_bind_of_ok h).trans hnext
  | some error => exact run_bind_of_error h

/-- The value, unless there is an error. -/
def checked (error : Option ε) (value : α) : Except ε α :=
  match error with
  | none => .ok value
  | some error => .error error

theorem checked_eq_error_iff {error? : Option ε} {value : α} {error : ε} :
    checked error? value = .error error ↔ error? = some error := by
  cases error? with
  | none => exact ⟨nofun, nofun⟩
  | some other => rw [checked, Except.error.injEq, Option.some.injEq]

/-- Checking all elements of a list finds the error of the first one that has any. -/
theorem mapM_eq_checked {f : α → Except ε β} {error? : α → Option ε} {value : α → β}
    (hf : ∀ a, f a = checked (error? a) (value a)) (l : List α) :
    l.mapM f = checked (l.findSome? error?) (l.map value) := by
  induction l with
  | nil => rfl
  | cons a l ih =>
    rw [List.mapM_cons, hf, ih, List.findSome?_cons]
    cases error? a with
    | some error => rfl
    | none => cases l.findSome? error? <;> rfl

end RegisterMachine
