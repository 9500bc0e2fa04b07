import RegisterMachine.Proofs.Assembly.Failing
import RegisterMachine.Proofs.Assembly.Program

/-!
# Mentions

The places in the sources that refer to labels, told without the code: a name behind an `int` directive is a mention
of a label, on its line and in its chunk.  The mentions that linking has to settle are those of the chunks that were
loaded since it last succeeded (`Assembly.awaiting`).  Linking fails exactly if one of them has no address, and the
error is about the first one (`link_error_of_first_mention`).
-/

namespace RegisterMachine

open Assembling
open LoadedItem (plain)

/-! ### Mentions -/

/-- A label that the sources refer to, the chunk that does so, from 1, and the line of the chunk that the name is on. -/
structure Mention where
  name : String
  chunk : Nat
  line : Nat
deriving DecidableEq, Repr

namespace Mention

/-- The mentions among the tokens of a chunk: names where the reader is ready for an integer. -/
def ofTokens (chunk : Nat) : Mode → List PlacedToken → List Mention
  | _, [] => []
  | mode, placed :: tokens =>
    match mode, placed.token with
    | .integer, .identifier name => ⟨name, chunk, placed.line⟩ :: ofTokens chunk (mode.behind placed) tokens
    | _, _ => ofTokens chunk (mode.behind placed) tokens

def ofSource (chunk : Nat) (source : String) : List Mention :=
  ofTokens chunk .plain ((Cursor.start source).stream .plain)

/-- No label has the name, or the address of the label takes more than 32 bits. -/
def Dangles (base : Int) (assembly : Assembly) (mention : Mention) : Prop :=
  assembly.label? mention.name = none ∨
    ∃ offset, assembly.label? mention.name = some offset ∧ 2147483647 < base + offset

instance (base : Int) (assembly : Assembly) (mention : Mention) : Decidable (mention.Dangles base assembly) :=
  match hlabel : assembly.label? mention.name with
  | none => isTrue (Or.inl hlabel)
  | some offset => decidable_of_iff (2147483647 < base + (offset : Int)) (by simp [Dangles, hlabel])

end Mention

namespace Assembly

/-- The mentions that wait behind a request, where the given ones wait in front of it and the given number of chunks
was loaded: a chunk adds its own mentions, and linking settles all of them or none. -/
def awaitingAfter (assembly : Assembly) (chunks : Nat) (waiting : List Mention) : Request → List Mention
  | .load source => waiting ++ Mention.ofSource (chunks + 1) source
  | .resolve => if (assembly.answer .resolve).isOk then [] else waiting
  | .emit => if (assembly.answer .emit).isOk then [] else waiting

/-- The mentions that wait behind all requests. -/
def awaiting (assembly : Assembly) (chunks : Nat) (waiting : List Mention) : List Request → List Mention
  | [] => waiting
  | request :: requests =>
    (assembly.after request).awaiting (chunks + (Request.sources [request]).length)
      (assembly.awaitingAfter chunks waiting request) requests

end Assembly

/-! ### References are mentions -/

namespace Mention

/-- What a reference mentions, wherever it stands in the code. -/
def ofReference (reference : Reference) : Mention := ⟨reference.name, reference.chunk, reference.line⟩

private theorem map_ofReference_cons (offset : Nat) (entry : LoadedItem) (loaded : List LoadedItem) :
    (LoadedItem.references offset (entry :: loaded)).map ofReference =
      (entry.item.reference?.map fun name => (⟨name, entry.chunk, entry.line⟩ : Mention)).toList ++
        (LoadedItem.references (offset + entry.item.size) loaded).map ofReference := by
  rw [LoadedItem.references]
  cases entry.item.reference? <;> rfl

/-- No statement starts with a mention. -/
private theorem ofTokens_plain_cons (chunk : Nat) (placed : PlacedToken) (tokens : List PlacedToken) :
    ofTokens chunk .plain (placed :: tokens) = ofTokens chunk (Mode.plain.behind placed) tokens := rfl

/-- A phrase that means a reference is a mention, and no other phrase is. -/
private theorem ofTokens_of_means {front : List PlacedToken} {item : SourceItem} (h : Means front item) (chunk : Nat)
    (back : List PlacedToken) :
    ofTokens chunk .plain (front ++ back) =
      (item.item.reference?.map fun name => (⟨name, chunk, item.line⟩ : Mention)).toList ++
        ofTokens chunk .plain back := by
  cases h with
  | byte => rfl
  | opcode hword =>
    rw [List.cons_append, ofTokens_plain_cons, Mode.behind, hword.directive?_eq_none]
    rfl
  | label hword | word hword | reference hword | bytes hword =>
    rw [List.cons_append, ofTokens_plain_cons, Mode.behind, hword.directive?_eq_some]
    rfl

/-- The references of a chunk that reads to its end are its mentions. -/
theorem map_ofReference_of_meansAll {tokens : List PlacedToken} {items : List SourceItem} (h : MeansAll tokens items)
    (chunk offset : Nat) :
    (LoadedItem.references offset (items.map (⟨·, chunk⟩))).map ofReference = ofTokens chunk .plain tokens := by
  induction h generalizing offset with
  | nil => rfl
  | cons hfront hback ih => rw [List.map_cons, map_ofReference_cons, ih, ofTokens_of_means hfront]

end Mention

/-! ### What waits -/

theorem Request.sources_cons (request : Request) (requests : List Request) :
    sources (request :: requests) = sources [request] ++ sources requests := by
  cases request <;> rfl

/-- The assembly has loaded the given number of chunks, and its pending references are the given mentions. -/
structure Assembly.Awaits (assembly : Assembly) (chunks : Nat) (waiting : List Mention) : Prop where
  loads_eq : assembly.loads = chunks
  holds : ∃ linked others, assembly.Holds linked others
  mentions_eq : assembly.pending.toList.map Mention.ofReference = waiting

variable {assembly : Assembly} {chunks : Nat} {waiting : List Mention} {request : Request}

namespace Assembly

theorem awaits_empty (base : Int) : (empty base).Awaits 0 [] :=
  ⟨rfl, ⟨[], [], holds_empty base⟩, rfl⟩

/-- Linking ends with the error of the first reference that cannot be linked, and leaves all of them or none. -/
theorem Holds.exists_run_link {linked others : List LoadedItem} (h : assembly.Holds linked others)
    (hrunning : assembly.halted = false) (hrequest : request = .resolve ∨ request = .emit) :
    ∃ reply last, request.action.run assembly =
        ended (LoadedItem.unlinkable? assembly.base linked others) reply last ∧
      match LoadedItem.unlinkable? assembly.base linked others with
      | some _ => last = assembly
      | none => last.Holds (linked ++ others) [] ∧ last.loads = assembly.loads := by
  cases hunlinkable : LoadedItem.unlinkable? assembly.base linked others with
  | some error =>
    rcases hrequest with rfl | rfl
    · exact ⟨.done, assembly, run_bind_of_error (run_resolve_of_unlinkable h hrunning hunlinkable), rfl⟩
    · exact ⟨.done, assembly, run_bind_of_error (run_emit_of_unlinkable h hrunning hunlinkable), rfl⟩
  | none =>
    rcases hrequest with rfl | rfl
    · obtain ⟨code, hcode, hrun⟩ := run_resolve_of_linkable h hrunning hunlinkable
      exact ⟨.done, _, run_bind_of_ok hrun, h.resolved hunlinkable hcode, rfl⟩
    · obtain ⟨code, hcode, hrun⟩ := run_emit_of_linkable h hrunning hunlinkable
      exact ⟨.program code, _, run_bind_of_ok hrun, h.resolved hunlinkable hcode, rfl⟩

/-- No request starts a halted assembly again. -/
theorem running_of_afterRequests {requests : List Request}
    (hrunning : (assembly.afterRequests requests).halted = false) : assembly.halted = false := by
  cases hhalted : assembly.halted with
  | false => rfl
  | true =>
    rw [afterRequests_of_halted hhalted, hhalted] at hrunning
    cases hrunning

theorem running_of_after (hrunning : (assembly.after request).halted = false) : assembly.halted = false :=
  running_of_afterRequests (show (assembly.afterRequests [request]).halted = false from hrunning)

namespace Awaits

/-- Loading a chunk appends its mentions. -/
theorem after_load (h : assembly.Awaits chunks waiting) {source : String}
    (hrunning : (assembly.after (.load source)).halted = false) (hchunks : chunks + 1 < 4294967296)
    (hlines : source.toList.count '\n' + 1 < 4294967296) :
    (assembly.after (.load source)).Awaits (chunks + 1) (waiting ++ Mention.ofSource (chunks + 1) source) := by
  obtain ⟨linked, others, hholds⟩ := h.holds
  obtain ⟨last, hload, hlast, hbase, hloads, hhalted⟩ := run_load_of_holds hholds (running_of_after hrunning) source
  rw [(answer_load_of_run hload).2] at hrunning ⊢
  -- The chunk did not halt the assembly, so all of its items were taken.
  rw [hrunning, eq_comm, Option.isSome_eq_false_iff, Option.isNone_iff_eq_none] at hhalted
  obtain ⟨htaken, hfailure⟩ := Option.or_eq_none_iff.1 hhalted
  have hchunk : min (assembly.loads + 1) 4294967295 = chunks + 1 := by
    rw [h.loads_eq]
    omega
  rw [SourceItem.taken_eq_self htaken, hchunk] at hlast
  refine ⟨hloads.trans (congrArg (· + 1) h.loads_eq), ⟨linked, _, hlast⟩, ?_⟩
  rw [Chunk.ofSource_eq_ofTokens hlines] at hfailure hlast
  rw [(hholds.continues hlast hbase).pending_eq, List.map_append, h.mentions_eq,
    Mention.map_ofReference_of_meansAll (Chunk.meansAll_of_failure hfailure)]
  rfl

/-- Linking settles all mentions or none. -/
theorem after_link (h : assembly.Awaits chunks waiting) (hrunning : assembly.halted = false)
    (hrequest : request = .resolve ∨ request = .emit) :
    (assembly.after request).Awaits chunks (if (assembly.answer request).isOk then [] else waiting) := by
  obtain ⟨linked, others, hholds⟩ := h.holds
  obtain ⟨reply, last, hrun, hlast⟩ := hholds.exists_run_link hrunning hrequest
  obtain ⟨hanswer, hafter⟩ := answer_of_run hrun
  rw [hanswer, hafter]
  cases hunlinkable : LoadedItem.unlinkable? assembly.base linked others with
  | some error =>
    rw [hunlinkable] at hlast
    rw [hlast]
    exact h
  | none =>
    rw [hunlinkable] at hlast
    obtain ⟨hlinked, hloads⟩ := hlast
    refine ⟨hloads.trans h.loads_eq, ⟨_, _, hlinked⟩, ?_⟩
    rw [hlinked.pending_eq]
    rfl

theorem after (h : assembly.Awaits chunks waiting) (hrunning : (assembly.after request).halted = false)
    (hchunks : chunks + (Request.sources [request]).length < 4294967296)
    (hlines : ∀ source ∈ Request.sources [request], source.toList.count '\n' + 1 < 4294967296) :
    (assembly.after request).Awaits (chunks + (Request.sources [request]).length)
      (assembly.awaitingAfter chunks waiting request) := by
  cases request with
  | load source => exact h.after_load hrunning hchunks (hlines source List.mem_cons_self)
  | resolve => exact h.after_link (running_of_after hrunning) (Or.inl rfl)
  | emit => exact h.after_link (running_of_after hrunning) (Or.inr rfl)

theorem afterRequests (h : assembly.Awaits chunks waiting) {requests : List Request}
    (hrunning : (assembly.afterRequests requests).halted = false)
    (hchunks : chunks + (Request.sources requests).length < 4294967296)
    (hlines : ∀ source ∈ Request.sources requests, source.toList.count '\n' + 1 < 4294967296) :
    (assembly.afterRequests requests).Awaits (chunks + (Request.sources requests).length)
      (assembly.awaiting chunks waiting requests) := by
  -- The requests are taken from the front, so that what follows starts from any assembly and its mentions.
  induction requests generalizing assembly chunks waiting with
  | nil => exact h
  | cons request requests ih =>
    rw [Request.sources_cons, List.length_append, ← Nat.add_assoc] at hchunks ⊢
    rw [Request.sources_cons, List.forall_mem_append] at hlines
    have hnext : (assembly.after request).halted = false := running_of_afterRequests hrunning
    have hfirst := h.after hnext (by omega) hlines.1
    exact ih hfirst hrunning hchunks hlines.2

end Awaits

end Assembly

/-! ### What linking reports -/

/-- Why a mention has no address. -/
def Mention.error? (assembly : Assembly) (mention : Mention) : Option AssemblyError :=
  match assembly.label? mention.name with
  | none => some ⟨.undefinedLabel mention.name mention.chunk, some mention.line⟩
  | some offset => if 2147483647 < assembly.base + offset then some ⟨.addressOverflow, none⟩ else none

theorem Mention.error?_eq_none_iff {mention : Mention} :
    mention.error? assembly = none ↔ ¬mention.Dangles assembly.base assembly := by
  unfold Mention.error? Mention.Dangles
  cases assembly.label? mention.name <;> simp

namespace Assembly

/-- In a program of less than 2 ^ 31 bytes every offset fits, so only the address of a label may not. -/
theorem Holds.error?_reference {linked others : List LoadedItem} (h : assembly.Holds linked others)
    (hbase : -2147483648 ≤ assembly.base) (hsize : assembly.code.size < 2147483648) (reference : Reference) :
    reference.error? assembly.base (plain (linked ++ others)) = (Mention.ofReference reference).error? assembly := by
  unfold Reference.error? Mention.error? Assembly.label? Mention.ofReference
  rw [h.labels_eq]
  cases hoffset : Image.offset? reference.name (plain (linked ++ others)) with
  | none => rfl
  | some offset =>
    have hle := Image.offset?_le_size hoffset
    rw [← h.size_code] at hle
    dsimp only
    by_cases haddress : 2147483647 < assembly.base + offset
    · rw [if_neg (by omega), if_pos haddress]
    · rw [if_pos (by omega), if_neg haddress]

/-- Linking ends with the error of the first mention that has no address. -/
theorem Awaits.answer_link (h : assembly.Awaits chunks waiting) (hrunning : assembly.halted = false)
    (hbase : -2147483648 ≤ assembly.base) (hsize : assembly.code.size < 2147483648)
    (hrequest : request = .resolve ∨ request = .emit) :
    ∃ reply, assembly.answer request = checked (waiting.findSome? (Mention.error? assembly)) reply := by
  obtain ⟨linked, others, hholds⟩ := h.holds
  obtain ⟨reply, last, hrun, -⟩ := hholds.exists_run_link hrunning hrequest
  have herror : LoadedItem.unlinkable? assembly.base linked others =
      waiting.findSome? (Mention.error? assembly) := by
    rw [LoadedItem.unlinkable?, ← hholds.pending_eq, ← h.mentions_eq, List.findSome?_map]
    congr 1
    funext reference
    exact hholds.error?_reference hbase hsize reference
  refine ⟨reply, ?_⟩
  rw [(answer_of_run hrun).1, herror]

end Assembly

/-- Linking fails if and only if one of the mentions that wait for it has no address: a mention of a label that is not
defined, or of one whose address takes more than 32 bits.  The error is about the first of them in the order of the
sources, and for a label that is not defined it has the name, the chunk and the line of the mention. -/
theorem link_error_of_first_mention {base : Int32} {requests : List Request} {request : Request}
    (hrequest : request = .resolve ∨ request = .emit)
    (hrunning : ((Assembly.empty base.toInt).afterRequests requests).halted = false)
    (hsize : ((Assembly.empty base.toInt).afterRequests requests).code.size < 2147483648)
    (hchunks : (Request.sources requests).length < 4294967295)
    (hlines : ∀ source ∈ Request.sources requests, source.toList.count '\n' + 1 < 4294967295) :
    let assembly := (Assembly.empty base.toInt).afterRequests requests
    let waiting := (Assembly.empty base.toInt).awaiting 0 [] requests
    ((∃ error, assembly.answer request = .error error) ↔
      ∃ mention ∈ waiting, mention.Dangles base.toInt assembly) ∧
    ∀ front mention back, waiting = front ++ mention :: back →
      (∀ earlier ∈ front, ¬earlier.Dangles base.toInt assembly) →
      (assembly.label? mention.name = none → assembly.answer request =
        .error ⟨.undefinedLabel mention.name mention.chunk, some mention.line⟩) ∧
      ∀ offset, assembly.label? mention.name = some offset → 2147483647 < base.toInt + offset →
        assembly.answer request = .error ⟨.addressOverflow, none⟩ := by
  intro assembly waiting
  have hawaits : assembly.Awaits (0 + (Request.sources requests).length) waiting :=
    (Assembly.awaits_empty base.toInt).afterRequests hrunning (by omega) fun source hsource => by
      have hline := hlines source hsource
      omega
  have hbase : assembly.base = base.toInt := ((Assembly.follows_empty base.toInt).afterRequests requests).2
  have hlow := base.le_toInt
  obtain ⟨reply, hanswer⟩ := hawaits.answer_link hrunning (by omega) hsize hrequest
  rw [← hbase, hanswer]
  simp only [checked_eq_error_iff]
  constructor
  · constructor
    · rintro ⟨error, herror⟩
      obtain ⟨mention, hmention, hfound⟩ := List.exists_of_findSome?_eq_some herror
      refine ⟨mention, hmention, Classical.not_not.1 fun hfine => ?_⟩
      rw [Mention.error?_eq_none_iff.2 hfine] at hfound
      cases hfound
    · rintro ⟨mention, hmention, hdangles⟩
      apply Option.ne_none_iff_exists'.1
      intro hnone
      exact Mention.error?_eq_none_iff.1 (List.findSome?_eq_none_iff.1 hnone mention hmention) hdangles
  · intro front mention back hsplit hfront
    -- The first mention without address decides, so it is enough to say what is wrong with it.
    have hfirst {error : AssemblyError} (herror : mention.error? assembly = some error) :
        waiting.findSome? (Mention.error? assembly) = some error :=
      List.findSome?_eq_some_iff.2 ⟨front, mention, back, hsplit, herror,
        fun earlier hearlier => Mention.error?_eq_none_iff.2 (hfront earlier hearlier)⟩
    constructor
    · intro hnone
      apply hfirst
      rw [Mention.error?, hnone]
    · intro offset hoffset haddress
      apply hfirst
      rw [Mention.error?, hoffset]
      exact if_pos haddress

/-- The first chunk is linked, and so is the first mention of the second one when the rest is not.  The name that is
missing stands two lines below its directive, and the mention behind it has no address either. -/
theorem link_error_of_first_mention_below_directive :
    let requests : List Request := [.load "label start int start", .resolve,
      .load "int start\nint // below\n\nmissing", .resolve, .load "int far noop label far"]
    let assembly := (Assembly.empty (2147483640 : Int32).toInt).afterRequests requests
    let waiting := (Assembly.empty (2147483640 : Int32).toInt).awaiting 0 [] requests
    assembly.halted = false ∧ assembly.code.size < 2147483648 ∧
    waiting = [⟨"start", 2, 1⟩] ++ ⟨"missing", 2, 4⟩ :: [⟨"far", 3, 1⟩] ∧
    assembly.label? "missing" = none ∧ assembly.label? "far" = some 17 ∧
    assembly.answer .emit = .error ⟨.undefinedLabel "missing" 2, some 4⟩ := by
  intro requests assembly waiting
  have hwaiting : waiting = [⟨"start", 2, 1⟩] ++ ⟨"missing", 2, 4⟩ :: [⟨"far", 3, 1⟩] := by decide +kernel
  obtain ⟨hrunning, hsize, hmissing, hfar, hfront⟩ :
      assembly.halted = false ∧ assembly.code.size < 2147483648 ∧
      assembly.label? "missing" = none ∧ assembly.label? "far" = some 17 ∧
      ∀ earlier ∈ [(⟨"start", 2, 1⟩ : Mention)], ¬earlier.Dangles (2147483640 : Int32).toInt assembly := by
    decide +kernel
  obtain ⟨-, hfirst⟩ :=
    link_error_of_first_mention (Or.inr rfl) hrunning hsize (by decide) (by decide +kernel)
  exact ⟨hrunning, hsize, hwaiting, hmissing, hfar,
    (hfirst [⟨"start", 2, 1⟩] ⟨"missing", 2, 4⟩ [⟨"far", 3, 1⟩] hwaiting hfront).1 hmissing⟩

end RegisterMachine
