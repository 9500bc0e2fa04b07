import RegisterMachine.Proofs.Assembly.Linking

/-!
# Histories

What chunks make of an assembly, told without code, labels and pending references: the items that were taken so far,
how many chunks were loaded, and whether one of them failed.  An assembly that follows a history answers every request
as the history does and follows it on (`Assembly.Follows.perform`), however many of its references are linked.
-/

namespace RegisterMachine

open Assembling
open LoadedItem (plain)

/-! ### Requests -/

/-- What can be asked of an assembly. -/
inductive Request where
  | load (source : String)
  | resolve
  | emit
deriving DecidableEq, Repr

/-- What a request returns that meets no error. -/
inductive Request.Reply where
  | done
  | program (code : Array UInt8)
deriving DecidableEq, Repr

namespace Request

def action : Request → Assembling Reply
  | load source => do
    Assembling.load source
    return .done
  | resolve => do
    Assembling.resolve
    return .done
  | emit => return .program (← Assembling.emit)

/-- The chunks among the requests, in their order. -/
def sources : List Request → List String
  | [] => []
  | load source :: requests => source :: sources requests
  | resolve :: requests => sources requests
  | emit :: requests => sources requests

end Request

namespace Assembly

/-- What a request returns. -/
def answer (assembly : Assembly) (request : Request) : Except AssemblyError Request.Reply :=
  match request.action.run assembly with
  | .ok reply _ => .ok reply
  | .error error _ => .error error

/-- The assembly that a request leaves behind, with or without an error. -/
def after (assembly : Assembly) (request : Request) : Assembly :=
  match request.action.run assembly with
  | .ok _ last => last
  | .error _ last => last

def afterRequests (assembly : Assembly) (requests : List Request) : Assembly := requests.foldl after assembly

theorem answer_of_run {assembly last : Assembly} {request : Request} {error? : Option AssemblyError}
    {reply : Request.Reply} (h : request.action.run assembly = ended error? reply last) :
    assembly.answer request = checked error? reply ∧ assembly.after request = last := by
  unfold answer after
  rw [h]
  cases error? with
  | none => exact ⟨rfl, rfl⟩
  | some error => exact ⟨rfl, rfl⟩

theorem answer_load_of_run {assembly last : Assembly} {source : String} {error? : Option AssemblyError}
    (h : (load source).run assembly = ended error? () last) :
    assembly.answer (.load source) = checked error? .done ∧ assembly.after (.load source) = last :=
  answer_of_run (run_bind_ended h rfl : (Request.load source).action.run assembly = ended error? .done last)

end Assembly

/-! ### Histories -/

structure History where
  items : List LoadedItem := []
  loads : Nat := 0
  halted : Bool := false
deriving DecidableEq, Repr

namespace History

/-- Why the next chunk cannot be loaded. -/
def unloadable? (history : History) (source : String) : Option AssemblyError :=
  if history.halted then some ⟨.halted, none⟩ else (Chunk.ofSource source).error? (plain history.items)

/-- Why the items cannot be linked in a program that is loaded at the base. -/
def unlinkable? (base : Int) (history : History) : Option AssemblyError :=
  if history.halted then some ⟨.halted, none⟩ else LoadedItem.unlinkable? base [] history.items

/-- The history behind the next chunk.  A chunk that fails adds the items in front of the error. -/
def load (history : History) (source : String) : History :=
  if history.halted then history
  else {
    items := history.items ++ (SourceItem.taken (plain history.items) (Chunk.ofSource source).items).1.map
      (⟨·, min (history.loads + 1) 4294967295⟩)
    loads := history.loads + 1
    halted := ((Chunk.ofSource source).error? (plain history.items)).isSome }

def answer (base : Int) (history : History) : Request → Except AssemblyError Request.Reply
  | .load source => checked (history.unloadable? source) .done
  | .resolve => checked (history.unlinkable? base) .done
  | .emit => checked (history.unlinkable? base) (.program (Image.bytes base (plain history.items)).toArray)

/-- Only chunks make history. -/
def after (history : History) : Request → History
  | .load source => history.load source
  | .resolve => history
  | .emit => history

theorem foldl_after (history : History) (requests : List Request) :
    requests.foldl after history = (Request.sources requests).foldl load history := by
  induction requests generalizing history with
  | nil => rfl
  | cons request requests ih =>
    cases request with
    | load source => exact ih (history.load source)
    | resolve => exact ih history
    | emit => exact ih history

end History

/-! ### Linking early -/

namespace LoadedItem

variable {base : Int} {linked waiting : List LoadedItem}

/-- Items behind a reference that can be linked do not change that. -/
private theorem error?_append_of_eq_none {reference : Reference} {items : List Item}
    (h : reference.error? base items = none) (more : List Item) : reference.error? base (items ++ more) = none := by
  obtain ⟨offset, hoffset, hbounds⟩ := Reference.error?_eq_none_iff.1 h
  exact Reference.error?_eq_none_iff.2 ⟨offset, Image.offset?_append_of_eq_some hoffset more, hbounds⟩

/-- Where the first items are linked, the others meet the same error as all of them would. -/
theorem unlinkable?_append (hlinked : unlinkable? base [] linked = none) (waiting : List LoadedItem) :
    unlinkable? base linked waiting = unlinkable? base [] (linked ++ waiting) := by
  have hfront : (references 0 linked).findSome? (Reference.error? base (plain (linked ++ waiting))) = none := by
    rw [List.findSome?_eq_none_iff]
    intro reference hreference
    rw [plain_append]
    exact error?_append_of_eq_none (List.findSome?_eq_none_iff.1 hlinked reference hreference) _
  rw [unlinkable?, unlinkable?, List.nil_append]
  show _ = (references 0 (linked ++ waiting)).findSome? _
  rw [references_append, List.findSome?_append, hfront, Option.none_or, Nat.zero_add]

end LoadedItem

/-- The assembly holds the items of the history.  Some of the first are linked, to labels among themselves. -/
def Assembly.Follows (assembly : Assembly) (history : History) : Prop :=
  assembly.loads = history.loads ∧ assembly.halted = history.halted ∧
    ∃ linked waiting, history.items = linked ++ waiting ∧ assembly.Holds linked waiting ∧
      LoadedItem.unlinkable? assembly.base [] linked = none

namespace Assembly

variable {assembly : Assembly} {history : History}

theorem follows_empty (base : Int) : (empty base).Follows {} :=
  ⟨rfl, rfl, [], [], rfl, holds_empty base, rfl⟩

namespace Follows

theorem size_code (h : assembly.Follows history) : assembly.code.size = Image.size (plain history.items) := by
  obtain ⟨-, -, linked, waiting, hitems, hholds, -⟩ := h
  rw [hitems]
  exact hholds.size_code

theorem label?_eq (h : assembly.Follows history) (name : String) :
    assembly.label? name = Image.offset? name (plain history.items) := by
  obtain ⟨-, -, linked, waiting, hitems, hholds, -⟩ := h
  rw [hitems]
  exact hholds.labels_eq name

/-- Loading a chunk ends as the history says. -/
theorem run_load (h : assembly.Follows history) (source : String) :
    ∃ last, (load source).run assembly = ended (history.unloadable? source) () last ∧
      last.Follows (history.load source) ∧ last.base = assembly.base := by
  have hfollows := h
  obtain ⟨hloads, hhalted, linked, waiting, hitems, hholds, hlinked⟩ := h
  unfold History.unloadable? History.load
  cases hrunning : assembly.halted with
  | true =>
    rw [← hhalted, hrunning]
    exact ⟨assembly, run_load_of_halted hrunning source, hfollows, rfl⟩
  | false =>
    rw [← hhalted, hrunning]
    obtain ⟨last, hrun, hlast, hbase, hloadsLast, hhaltedLast⟩ := run_load_of_holds hholds hrunning source
    rw [← hitems] at hrun hlast hhaltedLast
    rw [hloads] at hlast hloadsLast
    refine ⟨last, hrun, ⟨hloadsLast, hhaltedLast, linked, _, ?_, hlast, ?_⟩, hbase⟩
    · rw [hitems]
      exact List.append_assoc _ _ _
    · rw [hbase]
      exact hlinked

/-- Linking ends as the history says.  Either it changes nothing, or all items are linked. -/
theorem run_resolve (h : assembly.Follows history) :
    ∃ last, resolve.run assembly = ended (history.unlinkable? assembly.base) () last ∧
      last.Follows history ∧ last.base = assembly.base ∧
      (history.unlinkable? assembly.base ≠ none → last = assembly) ∧
      (history.unlinkable? assembly.base = none →
        last.code.toList = Image.bytes assembly.base (plain history.items)) := by
  have hfollows := h
  obtain ⟨hloads, hhalted, linked, waiting, hitems, hholds, hlinked⟩ := h
  have hall := LoadedItem.unlinkable?_append hlinked waiting
  unfold History.unlinkable?
  rw [← hhalted]
  cases hrunning : assembly.halted with
  | true => exact ⟨assembly, run_resolve_of_halted hrunning, hfollows, rfl, fun _ => rfl, nofun⟩
  | false =>
    rw [if_neg Bool.false_ne_true, hitems, ← hall]
    cases hunlinkable : LoadedItem.unlinkable? assembly.base linked waiting with
    | some error =>
      exact ⟨assembly, run_resolve_of_unlinkable hholds hrunning hunlinkable, hfollows, rfl, fun _ => rfl,
        fun hnone => absurd hnone (Option.some_ne_none error)⟩
    | none =>
      obtain ⟨code, hcode, hrun⟩ := run_resolve_of_linkable hholds hrunning hunlinkable
      refine ⟨_, hrun, ⟨hloads, hhalted, linked ++ waiting, [], ?_, hholds.resolved hunlinkable hcode, ?_⟩, rfl,
        fun hne => absurd rfl hne, fun _ => hcode⟩
      · rw [hitems, List.append_nil]
      · rw [← hall]
        exact hunlinkable

private theorem exists_run (h : assembly.Follows history) (request : Request) :
    ∃ error? reply last, request.action.run assembly = ended error? reply last ∧
      history.answer assembly.base request = checked error? reply ∧ last.Follows (history.after request) ∧
      last.base = assembly.base := by
  cases request with
  | load source =>
    obtain ⟨last, hrun, hlast, hbase⟩ := h.run_load source
    exact ⟨_, .done, last, run_bind_ended hrun rfl, rfl, hlast, hbase⟩
  | resolve =>
    obtain ⟨last, hrun, hlast, hbase, -, -⟩ := h.run_resolve
    exact ⟨_, .done, last, run_bind_ended hrun rfl, rfl, hlast, hbase⟩
  | emit =>
    obtain ⟨last, hrun, hlast, hbase, -, hcode⟩ := h.run_resolve
    have hemit : emit.run assembly = ended (history.unlinkable? assembly.base) last.code last :=
      run_bind_ended hrun rfl
    refine ⟨_, .program last.code, last, run_bind_ended hemit rfl, ?_, hlast, hbase⟩
    show checked _ _ = checked _ _
    cases hunlinkable : history.unlinkable? assembly.base with
    | some error => rfl
    | none => rw [← hcode hunlinkable]

/-- An assembly answers a request as its history does, and follows the history on. -/
theorem perform (h : assembly.Follows history) (request : Request) :
    assembly.answer request = history.answer assembly.base request ∧
      (assembly.after request).Follows (history.after request) ∧ (assembly.after request).base = assembly.base := by
  obtain ⟨error?, reply, last, hrun, hanswer, hlast, hbase⟩ := h.exists_run request
  obtain ⟨hreply, hafter⟩ := answer_of_run hrun
  rw [hreply, hanswer, hafter]
  exact ⟨rfl, hlast, hbase⟩

theorem afterRequests (h : assembly.Follows history) (requests : List Request) :
    (assembly.afterRequests requests).Follows ((Request.sources requests).foldl History.load history) ∧
      (assembly.afterRequests requests).base = assembly.base := by
  rw [← History.foldl_after]
  induction requests generalizing assembly history with
  | nil => exact ⟨h, rfl⟩
  | cons request requests ih =>
    obtain ⟨-, hnext, hbase⟩ := h.perform request
    obtain ⟨hlast, hbaseLast⟩ := ih hnext
    exact ⟨hlast, hbaseLast.trans hbase⟩

end Follows

end Assembly

end RegisterMachine
