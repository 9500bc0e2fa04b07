import RegisterMachine.Proofs.Assembly.History

/-!
# The time of linking

References may be linked whenever one likes.  What a request returns depends on the chunks loaded before it and on
nothing else, so linking early or in vain is never noticed (`answer_of_sources_eq`).  Linking either takes place as a
whole or leaves the assembly as it was.
-/

namespace RegisterMachine

open Assembling

namespace Assembly.Follows

variable {assembly last : Assembly} {history : History} {error : AssemblyError}

/-- Linking that fails changes nothing. -/
theorem eq_of_run_resolve (h : assembly.Follows history) (hrun : resolve.run assembly = .error error last) :
    last = assembly := by
  obtain ⟨other, hended, -, -, hsame, -⟩ := h.run_resolve
  rw [hended] at hrun
  cases hunlinkable : history.unlinkable? assembly.base with
  | none =>
    rw [hunlinkable] at hrun
    cases hrun
  | some cause =>
    rw [hunlinkable] at hrun
    cases hrun
    exact hsame (by rw [hunlinkable]; exact Option.some_ne_none _)

theorem eq_of_run_emit (h : assembly.Follows history) (hrun : emit.run assembly = .error error last) :
    last = assembly := by
  cases hresolve : resolve.run assembly with
  | ok value middle =>
    rw [emit, run_bind_of_ok hresolve] at hrun
    cases hrun
  | error cause middle =>
    rw [emit, run_bind_of_error hresolve] at hrun
    cases hrun
    exact h.eq_of_run_resolve hresolve

/-- Once the targets of all references are found, every reference can be patched. -/
theorem exists_run_patches (h : assembly.Follows history) {targets : List (Reference × Int)}
    (htargets : assembly.targets = .ok targets) :
    ∃ last, (forM targets fun (reference, address) => patch reference address).run assembly = .ok () last := by
  obtain ⟨-, -, linked, waiting, -, hholds, -⟩ := h
  cases hunlinkable : LoadedItem.unlinkable? assembly.base linked waiting with
  | some cause =>
    rw [targets_of_unlinkable hholds hunlinkable] at htargets
    cases htargets
  | none =>
    obtain ⟨found, code, hfound, -, hrun⟩ := exists_targets_of_linkable hholds hunlinkable
    rw [hfound] at htargets
    cases htargets
    exact ⟨_, hrun⟩

end Assembly.Follows

/-- Requests to link the references or to emit the program may go out of a sequence of requests or come in anywhere:
as long as the same chunks are loaded in the same order, every request returns the same.  Where linking fails, code,
labels and pending references stay as they were, and where all targets are found, all references are patched. -/
theorem answer_of_sources_eq {base : Int} {requests others : List Request}
    (h : Request.sources requests = Request.sources others) :
    let assembly := (Assembly.empty base).afterRequests requests
    let other := (Assembly.empty base).afterRequests others
    (∀ request, assembly.answer request = other.answer request) ∧
    (∀ error last, resolve.run assembly = .error error last → last = assembly) ∧
    (∀ error last, emit.run assembly = .error error last → last = assembly) ∧
    (∀ targets, assembly.targets = .ok targets →
      ∃ last, (forM targets fun (reference, address) => patch reference address).run assembly = .ok () last) := by
  intro assembly other
  obtain ⟨hassembly, hbase⟩ := (Assembly.follows_empty base).afterRequests requests
  obtain ⟨hother, hbaseOther⟩ := (Assembly.follows_empty base).afterRequests others
  rw [← h] at hother
  refine ⟨?_, fun _ _ => hassembly.eq_of_run_resolve, fun _ _ => hassembly.eq_of_run_emit,
    fun _ => hassembly.exists_run_patches⟩
  intro request
  have hanswer := (hassembly.perform request).1
  have hanswerOther := (hother.perform request).1
  rw [hbaseOther, ← hbase] at hanswerOther
  exact hanswer.trans hanswerOther.symm

/-- The first request to link fails, the second one links a reference in front of the last chunk, and neither changes
the program. -/
theorem answer_of_sources_eq_three_chunks :
    let assembly := (Assembly.empty 5).afterRequests
      [.load "int end", .resolve, .load "label end", .emit, .load "int end", .resolve]
    let other := (Assembly.empty 5).afterRequests [.load "int end", .load "label end", .load "int end"]
    (∀ request, assembly.answer request = other.answer request) ∧
      (other.answer .emit).toOption = some (.program #[9, 0, 0, 0, 9, 0, 0, 0]) :=
  ⟨(answer_of_sources_eq (by decide)).1, by decide +kernel⟩

end RegisterMachine
