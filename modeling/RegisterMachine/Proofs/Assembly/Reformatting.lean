import RegisterMachine.Proofs.Assembly.Joining
import RegisterMachine.Proofs.Item.Words

/-!
# Reformatted sources

How a source is laid out is of no consequence: comments, blanks and line breaks may be put between its tokens or taken
away, as long as something stands between any two of them, and tokens that nothing separates may be set apart.  Either
way the source loads as it did before (`load_of_reformatted`).  Only the lines that errors report are others.
-/

namespace RegisterMachine

open Assembling
open LoadedItem (plain)

/-- Whether items are taken does not depend on their lines. -/
theorem SourceItem.taken_congr {loaded : List Item} {items others : List SourceItem}
    (h : (others.map fun entry => entry.item) = items.map fun entry => entry.item)
    (htaken : (taken loaded items).2 = none) : (taken loaded others).2 = none := by
  induction items generalizing loaded others with
  | nil =>
    rw [List.map_nil, List.map_eq_nil_iff] at h
    rw [h]
    rfl
  | cons item items ih =>
    obtain ⟨other, others, rfl, hitem, hothers⟩ := List.map_eq_cons_iff.1 h
    rw [taken] at htaken ⊢
    rw [hitem]
    cases hrefusal : item.item.refusal? loaded with
    | some cause =>
      rw [hrefusal] at htaken
      cases htaken
    | none =>
      rw [hrefusal] at htaken
      exact ih hothers htaken

variable {assembly last : Assembly} {linked waiting : List LoadedItem} {source other : String}

/-- A text of the same words loads where the source does, and makes the same assembly. -/
theorem exists_run_load_of_spaced (h : assembly.Holds linked waiting)
    (hlinked : LoadedItem.unlinkable? assembly.base [] linked = none)
    (hload : (load source).run assembly = .ok () last)
    (hspaced : Spaced (((Cursor.start source).stream .plain).map PlacedToken.word) other.toList) :
    ∃ reformatted, (load other).run assembly = .ok () reformatted ∧ reformatted.Resembles last ∧
      reformatted.loads = last.loads ∧
      reformatted.pending.toList.map (fun reference => (reference.offset, reference.name, reference.chunk)) =
        last.pending.toList.map fun reference => (reference.offset, reference.name, reference.chunk) := by
  obtain ⟨hrunning, herror, hlast, hbase, hloads, hhalted⟩ := taken_of_run_load h hload
  obtain ⟨htaken, hfailure⟩ := Option.or_eq_none_iff.1 herror
  obtain ⟨hfailureOther, hitems⟩ := Chunk.ofSource_of_spaced hfailure hspaced
  have herrorOther : (Chunk.ofSource other).error? (plain (linked ++ waiting)) = none :=
    Option.or_eq_none_iff.2 ⟨SourceItem.taken_congr hitems htaken, hfailureOther⟩
  obtain ⟨reformatted, hrun, hholds, hbaseOther, hloadsOther, hhaltedOther⟩ :=
    run_load_of_error?_eq_none h hrunning herrorOther
  -- The items agree, and all of them came in the same chunk.
  have hchunk (items : List SourceItem) (chunk : Nat) :
      ((items.map fun item => (⟨item, chunk⟩ : LoadedItem)).map fun entry => (entry.item, entry.chunk)) =
        (items.map fun entry => entry.item).map fun item => (item, chunk) := by
    rw [List.map_map, List.map_map]
    rfl
  refine ⟨reformatted, hrun, ⟨hbaseOther.trans hbase.symm, hhaltedOther.trans hhalted.symm, linked, _, _, hholds, hlast,
    ?_, ?_⟩, hloadsOther.trans hloads.symm, ?_⟩
  · rw [LoadedItem.plain_append, LoadedItem.plain_append, LoadedItem.plain_map, LoadedItem.plain_map, hitems]
  · rw [hbaseOther]
    exact hlinked
  · rw [hholds.pending_eq, hlast.pending_eq]
    apply LoadedItem.map_references id
    rw [List.map_append, List.map_append]
    exact congrArg _ ((hchunk _ _).trans (hitems ▸ (hchunk _ _).symm))

/-- A source that loads also loads when each of its tokens stands a single space behind the one before, and then
nothing else changes: code, labels and the references that wait are the same, those of earlier chunks and those of
this one, and so are the programs that are emitted from then on. -/
theorem load_of_reformatted {base : Int} {requests : List Request} {source : String} {last : Assembly}
    (hload : (load source).run ((Assembly.empty base).afterRequests requests) = .ok () last) :
    let assembly := (Assembly.empty base).afterRequests requests
    let tokens := (Cursor.start source).stream .plain
    ∃ reformatted : Assembly,
      (load (" ".intercalate (tokens.map fun placed => placed.token.text))).run assembly = .ok () reformatted ∧
      reformatted.code = last.code ∧ reformatted.labelList = last.labelList ∧
      reformatted.pending.toList.map (fun reference => (reference.offset, reference.name, reference.chunk)) =
        last.pending.toList.map (fun reference => (reference.offset, reference.name, reference.chunk)) ∧
      reformatted.base = last.base ∧ reformatted.loads = last.loads ∧ reformatted.halted = last.halted ∧
      ∀ more reply, (reformatted.afterRequests more).answer .emit = .ok reply ↔
        (last.afterRequests more).answer .emit = .ok reply := by
  intro assembly tokens
  obtain ⟨⟨-, -, linked, waiting, -, hholds, hlinked⟩, -⟩ := (Assembly.follows_empty base).afterRequests requests
  have hspaced : Spaced (tokens.map PlacedToken.word)
      (" ".intercalate (tokens.map fun placed => placed.token.text)).toList := by
    have htext : (" ".intercalate (tokens.map fun placed => placed.token.text)).toList =
        List.intercalate [' '] (tokens.map PlacedToken.word) := by
      rw [String.toList_intercalate, List.map_map]
      rfl
    rw [htext]
    exact spaced_intercalate _
  obtain ⟨reformatted, hrun, hresembles, hloads, hpending⟩ :=
    exists_run_load_of_spaced hholds hlinked hload hspaced
  exact ⟨reformatted, hrun, hresembles.code_eq, hresembles.labelList_eq, hpending, hresembles.base_eq, hloads,
    hresembles.halted_eq, hresembles.answer_emit_iff⟩

/-- Nothing separates the number from the directive behind it, nor the hex digits from the mnemonic, and a comment and
line breaks do the rest.  One reference is to a label that is linked already, the other one to a label behind it. -/
theorem load_of_reformatted_adjacent_tokens :
    let assembly := (Assembly.empty 5).afterRequests [.load "label start noop", .resolve]
    ∃ last reformatted : Assembly,
      (load "7int end//c\nhex 0anoop int start label\nend").run assembly = .ok () last ∧
      (load "7 int end hex 0a noop int start label end").run assembly = .ok () reformatted ∧
      reformatted.code = last.code ∧ reformatted.labelList = last.labelList ∧
      last.pending.toList.map (fun reference => reference.line) = [1, 2] ∧
      reformatted.pending.toList.map (fun reference => (reference.offset, reference.name, reference.chunk)) =
        [(2, "end", 2), (8, "start", 2)] := by
  intro assembly
  obtain ⟨hfollows, -⟩ := (Assembly.follows_empty 5).afterRequests [.load "label start noop", .resolve]
  obtain ⟨last, hload, -, -⟩ := hfollows.run_load "7int end//c\nhex 0anoop int start label\nend"
  have hloads : History.unloadable? ((Request.sources [.load "label start noop", .resolve]).foldl History.load {})
      "7int end//c\nhex 0anoop int start label\nend" = none := by decide +kernel
  rw [hloads] at hload
  have htext : " ".intercalate (((Cursor.start "7int end//c\nhex 0anoop int start label\nend").stream .plain).map
      fun placed => placed.token.text) = "7 int end hex 0a noop int start label end" := by decide +kernel
  have hpending : (assembly.after (.load "7int end//c\nhex 0anoop int start label\nend")).pending.toList =
      [⟨2, "end", 2, 1⟩, ⟨8, "start", 2, 2⟩] := by decide +kernel
  have hrequest : (Request.load "7int end//c\nhex 0anoop int start label\nend").action.run assembly =
      ended none .done last := run_bind_ended hload rfl
  rw [(Assembly.answer_of_run hrequest).2] at hpending
  obtain ⟨reformatted, hrun, hcode, hlabels, hreferences, -⟩ := load_of_reformatted hload
  rw [htext] at hrun
  refine ⟨last, reformatted, hload, hrun, hcode, hlabels, ?_, ?_⟩
  · rw [hpending]
    rfl
  · rw [hreferences, hpending]
    rfl

end RegisterMachine
