import RegisterMachine.Proofs.Assembly.Language

/-!
# Failing

A chunk that fails is cut in front of the item that does not come to its end: the items before it are loaded as ever,
and nothing of the item itself is (`Chunk.exists_cut`).  From then on the assembly stands still, and every request ends
in the same error (`cut_of_load_error`).
-/

namespace RegisterMachine

open Assembling
open LoadedItem (plain)

variable {loaded : List Item} {tokens : List PlacedToken} {error : AssemblyError}

/-! ### Where a chunk is cut -/

/-- The tokens do not go on with an item that can be taken behind code of the given size: they go on with a flaw, or
with a label or a reference whose offset takes more than 32 bits. -/
inductive Stops (defined : String → Prop) (size : Nat) : List PlacedToken → AssemblyError → Prop
  | flaw {tokens : List PlacedToken} {error : AssemblyError} (h : Flaw defined tokens error) :
      Stops defined size tokens error
  | label {word name : String} {j k : Nat} {rest : List PlacedToken} (hword : Directive.label.WrittenAs word)
      (hname : ¬defined name) (hsize : 4294967296 ≤ size) :
      Stops defined size (⟨.identifier word, j⟩ :: ⟨.identifier name, k⟩ :: rest) ⟨.addressOverflow, some (k + 1)⟩
  | reference {word name : String} {j k : Nat} {rest : List PlacedToken} (hword : Directive.int.WrittenAs word)
      (hsize : 4294967296 ≤ size) :
      Stops defined size (⟨.identifier word, j⟩ :: ⟨.identifier name, k⟩ :: rest) ⟨.addressOverflow, some (k + 1)⟩

/-- Tokens that say nothing but an error start with a flaw. -/
private theorem flaw_of_ofTokens (h : Chunk.ofTokens tokens = ⟨[], some error⟩)
    (htokens : ∀ placed ∈ tokens, placed.token ≠ .endOfInput ∧ placed.token.HasShape) (loaded : List Item) :
    Flaw (· ∈ Image.definitions loaded) tokens error := by
  -- A phrase in front would be an item.
  have hphrase {front back : List PlacedToken} {label? : Option String} (hsplit : tokens = front ++ back)
      (hfront : Phrase front label?) : False := by
    rw [hsplit, List.forall_mem_append] at htokens
    obtain ⟨item, -, hread⟩ := hfront.exists_item fun placed hplaced => (htokens.1 placed hplaced).2
    rw [hsplit, hread] at h
    cases h
  rcases sentence_or_broken (· ∈ Image.definitions loaded) tokens with hsentence | ⟨cause, hbroken⟩
  · cases hsentence with
    | nil => cases h
    | cons hfront => exact (hphrase rfl hfront).elim
  · cases hbroken with
    | here hflaw =>
      have herror := hflaw.error?_eq (fun name (hname : name ∈ Image.definitions loaded) => hname) htokens
      rw [h] at herror
      cases herror
      exact hflaw
    | later hfront => exact (hphrase rfl hfront).elim

/-- A phrase stops a chunk where the item that it means is refused. -/
private theorem stops_of_refusal? {item : SourceItem} {cause : AssemblyError.Cause} (h : Means tokens item)
    (hrefusal : item.item.refusal? loaded = some cause) (rest : List PlacedToken) :
    Stops (· ∈ Image.definitions loaded) (Image.size loaded) (tokens ++ rest) ⟨cause, some item.line⟩ := by
  cases h with
  | @label word name j k hword =>
    rw [Item.refusal?] at hrefusal
    by_cases hname : name ∈ Image.definitions loaded
    · rw [if_pos hname] at hrefusal
      cases hrefusal
      exact .flaw (.label hword hname)
    · rw [if_neg hname, Option.ite_none_left_eq_some] at hrefusal
      obtain ⟨hsize, hcause⟩ := hrefusal
      cases hcause
      exact .label hword hname (Nat.le_of_not_lt hsize)
  | reference hword =>
    rw [Item.refusal?, Option.ite_none_left_eq_some] at hrefusal
    obtain ⟨hsize, hcause⟩ := hrefusal
    cases hcause
    exact .reference hword (Nat.le_of_not_lt hsize)
  | byte | opcode | word | bytes => cases hrefusal

namespace Chunk

/-- The tokens are cut where they stop, and the items in front of the cut are those that are taken. -/
def CutBy (error : AssemblyError) (loaded : List Item) (tokens : List PlacedToken) : Prop :=
  ∃ front back items, tokens = front ++ back ∧ ofTokens front = ⟨items, none⟩ ∧
    (SourceItem.taken loaded (ofTokens tokens).items).1 = items ∧
    Stops (· ∈ Image.definitions (loaded ++ items.map fun entry => entry.item))
      (Image.size (loaded ++ items.map fun entry => entry.item)) back error

/-- Where tokens stop at once, nothing is in front of the cut. -/
private theorem CutBy.here (hstops : Stops (· ∈ Image.definitions loaded) (Image.size loaded) tokens error)
    (htaken : (SourceItem.taken loaded (ofTokens tokens).items).1 = []) : CutBy error loaded tokens := by
  refine ⟨[], tokens, [], rfl, rfl, htaken, ?_⟩
  rw [List.map_nil, List.append_nil]
  exact hstops

/-- Tokens that read as an item and then others are cut in front of the item or behind it. -/
private theorem CutBy.cons (first : List PlacedToken) {line : Nat} {result : Except AssemblyError.Cause Item}
    (hread : ∀ back, ofTokens (first ++ back) = cons line result (ofTokens back))
    (htokens : ∀ placed ∈ first ++ tokens, placed.token ≠ .endOfInput ∧ placed.token.HasShape)
    (hmeans : ∀ item, result = .ok item → Means first ⟨item, line⟩)
    (h : (ofTokens (first ++ tokens)).error? loaded = some error)
    (hbehind : ∀ item, (ofTokens tokens).error? (loaded ++ [item]) = some error →
      CutBy error (loaded ++ [item]) tokens) : CutBy error loaded (first ++ tokens) := by
  rw [hread] at h
  cases result with
  | error cause =>
    cases h
    exact .here (.flaw (flaw_of_ofTokens (hread tokens) htokens loaded)) (by rw [hread, Chunk.cons, SourceItem.taken])
  | ok item =>
    rw [Chunk.cons, error?, SourceItem.taken] at h
    cases hrefusal : item.refusal? loaded with
    | some cause =>
      rw [hrefusal] at h
      cases h
      have hstops := stops_of_refusal? (hmeans item rfl) hrefusal tokens
      exact .here hstops (by rw [hread, Chunk.cons, SourceItem.taken, hrefusal])
    | none =>
      rw [hrefusal] at h
      obtain ⟨front, back, items, hsplit, hfront, htaken, hstops⟩ := hbehind item h
      refine ⟨first ++ front, back, ⟨item, line⟩ :: items, ?_, ?_, ?_, ?_⟩
      · rw [hsplit, List.append_assoc]
      · rw [hread, hfront]
        rfl
      · rw [hread, Chunk.cons, SourceItem.taken, hrefusal]
        exact congrArg _ htaken
      · rw [List.append_assoc] at hstops
        exact hstops

/-- A chunk that cannot be loaded is cut where its tokens stop. -/
theorem cutBy_of_error? (h : (ofTokens tokens).error? loaded = some error)
    (htokens : ∀ placed ∈ tokens, placed.token ≠ .endOfInput ∧ placed.token.HasShape) :
    CutBy error loaded tokens := by
  induction tokens using ofTokens.induct generalizing loaded with
  | case1 => cases h
  | case2 first tokens hdirective ih =>
    exact CutBy.cons [first] (ofTokens_of_token hdirective) htokens (fun item => Item.means_of_ofToken) h
      fun item herror => ih herror (List.forall_mem_cons.1 htokens).2
  | case3 first directive hdirective =>
    have hread := ofTokens_of_missing hdirective
    rw [hread] at h
    cases h
    exact .here (.flaw (flaw_of_ofTokens hread htokens loaded)) (by rw [hread, SourceItem.taken])
  | case4 first directive hdirective operand tokens ih =>
    exact CutBy.cons [first, operand] (ofTokens_of_directive hdirective operand) htokens
      (fun item => Item.means_of_ofOperand hdirective) h
      fun item herror => ih herror (List.forall_mem_cons.1 (List.forall_mem_cons.1 htokens).2).2

end Chunk

/-! ### Standing still -/

/-- A chunk counts once at most. -/
theorem History.loads_foldl_load_le (history : History) (sources : List String) :
    (sources.foldl load history).loads ≤ history.loads + sources.length := by
  induction sources generalizing history with
  | nil => exact Nat.le_refl _
  | cons source sources ih =>
    have hnext : (history.load source).loads ≤ history.loads + 1 := by
      rw [load]
      split
      · exact Nat.le_succ _
      · exact Nat.le_refl _
    have hlast := ih (history.load source)
    rw [List.foldl_cons, List.length_cons]
    omega

theorem Assembly.loads_afterRequests_le (base : Int) (requests : List Request) :
    ((empty base).afterRequests requests).loads ≤ (Request.sources requests).length := by
  obtain ⟨⟨hloads, -⟩, -⟩ := (follows_empty base).afterRequests requests
  have hle := History.loads_foldl_load_le {} (Request.sources requests)
  rw [Nat.zero_add] at hle
  rwa [hloads]

theorem Request.run_of_halted {assembly : Assembly} (h : assembly.halted = true) (request : Request) :
    request.action.run assembly = .error ⟨.halted, none⟩ assembly := by
  cases request with
  | load source => exact run_bind_of_error (run_load_of_halted h source)
  | resolve => exact run_bind_of_error (run_resolve_of_halted h)
  | emit => exact run_bind_of_error (run_bind_of_error (run_resolve_of_halted h))

namespace Assembly

variable {assembly : Assembly}

theorem perform_of_halted (h : assembly.halted = true) (request : Request) :
    assembly.answer request = .error ⟨.halted, none⟩ ∧ assembly.after request = assembly := by
  unfold answer after
  rw [request.run_of_halted h]
  exact ⟨rfl, rfl⟩

theorem afterRequests_of_halted (h : assembly.halted = true) (requests : List Request) :
    assembly.afterRequests requests = assembly := by
  induction requests with
  | nil => rfl
  | cons request requests ih =>
    rw [afterRequests, List.foldl_cons, (perform_of_halted h request).2]
    exact ih

end Assembly

/-- A chunk that fails is cut where its tokens stop: the items in front of the cut are loaded, nothing else is, and the
chunk counts.  From then on no request changes anything or returns anything but the error that the assembly is
halted. -/
theorem cut_of_load_error {base : Int} {requests : List Request} {source : String} {error : AssemblyError}
    {last : Assembly} (hrunning : ((Assembly.empty base).afterRequests requests).halted = false)
    (hloads : (Request.sources requests).length < 4294967295)
    (hrun : (load source).run ((Assembly.empty base).afterRequests requests) = .error error last) :
    let assembly := (Assembly.empty base).afterRequests requests
    let tokens := ((Cursor.start source).stream .plain).map PlacedToken.counted
    (∃ front back items, tokens = front ++ back ∧ Chunk.ofTokens front = ⟨items, none⟩ ∧
      last.Continues assembly (items.map (⟨·, assembly.chunkCount + 1⟩)) ∧
      Stops (fun name => (last.label? name).isSome = true) last.code.size back error) ∧
    last.chunkCount = assembly.chunkCount + 1 ∧
    ∀ more, last.afterRequests more = last ∧
      ∀ request, (last.afterRequests more).answer request = .error ⟨.halted, none⟩ := by
  intro assembly tokens
  obtain ⟨⟨-, -, linked, waiting, -, hholds, -⟩, -⟩ := (Assembly.follows_empty base).afterRequests requests
  obtain ⟨next, hload, hlast, hbase, hnext, hhalted⟩ := run_load_of_holds hholds hrunning source
  -- Whatever the chunk meets is an error, so the assembly is halted.
  rw [hload] at hrun
  cases herror : (Chunk.ofSource source).error? (plain (linked ++ waiting)) with
  | none =>
    rw [herror] at hrun
    cases hrun
  | some cause =>
    rw [herror] at hrun hhalted
    cases hrun
    have hread : Chunk.ofSource source = Chunk.ofTokens tokens := Chunk.ofCursor_eq_ofTokens_counted _
    have hfew : assembly.loads < 4294967295 :=
      Nat.lt_of_le_of_lt (Assembly.loads_afterRequests_le base requests) hloads
    have hchunk : min (assembly.loads + 1) 4294967295 = assembly.chunkCount + 1 := by
      rw [Assembly.chunkCount, Nat.min_eq_left hfew, Nat.min_eq_left (Nat.le_of_lt hfew)]
    have htokens : ∀ placed ∈ tokens, placed.token ≠ .endOfInput ∧ placed.token.HasShape := by
      rw [List.forall_mem_map]
      intro placed hplaced
      show placed.token ≠ .endOfInput ∧ placed.token.HasShape
      exact Cursor.hasShape_of_mem_stream hplaced
    rw [hread] at herror hlast
    obtain ⟨front, back, items, hsplit, hfront, htaken, hstops⟩ := Chunk.cutBy_of_error? herror htokens
    rw [htaken, hchunk] at hlast
    refine ⟨⟨front, back, items, hsplit, hfront, hholds.continues hlast hbase, ?_⟩, ?_, fun more => ?_⟩
    · have hdefined : (fun name => (last.label? name).isSome = true) =
          (· ∈ Image.definitions (plain (linked ++ waiting) ++ items.map fun entry => entry.item)) := by
        funext name
        rw [hlast.isSome_label?_iff, LoadedItem.plain_append_append, LoadedItem.plain_map]
      rw [hdefined, hlast.size_code, LoadedItem.plain_append_append, LoadedItem.plain_map]
      exact hstops
    · rw [Assembly.chunkCount, hnext, hchunk]
    · rw [Assembly.afterRequests_of_halted hhalted]
      exact ⟨rfl, fun request => (Assembly.perform_of_halted hhalted request).1⟩

/-- The item that fails is the fourth one.  Its label keeps its offset, and what was linked stays linked. -/
theorem cut_of_load_error_duplicate_label :
    let assembly := (Assembly.empty 10).afterRequests [.load "label start int start", .resolve]
    let last := assembly.after (.load "int end hex AB\nnoop label start 7")
    assembly.halted = false ∧
    (load "int end hex AB\nnoop label start 7").run assembly = .error ⟨.duplicateLabel "start", some 2⟩ last ∧
    last.code.toList = [10, 0, 0, 0] ++ [0, 0, 0, 0] ++ [171] ++ [Opcode.noop.toByte] ∧
    last.label? "start" = some 0 ∧ last.pending.toList = [⟨4, "end", 2, 1⟩] ∧ last.chunkCount = 2 ∧
    last.answer .emit = .error ⟨.halted, none⟩ := by
  intro assembly last
  have hrunning : assembly.halted = false := by decide +kernel
  have hcount : assembly.chunkCount = 1 := by decide +kernel
  have hrun : (load "int end hex AB\nnoop label start 7").run assembly =
      .error ⟨.duplicateLabel "start", some 2⟩ last := by
    obtain ⟨hfollows, -⟩ := (Assembly.follows_empty 10).afterRequests [.load "label start int start", .resolve]
    obtain ⟨next, hload, -, -⟩ := hfollows.run_load "int end hex AB\nnoop label start 7"
    have hfails : History.unloadable?
        ((Request.sources [.load "label start int start", .resolve]).foldl History.load {})
        "int end hex AB\nnoop label start 7" = some ⟨.duplicateLabel "start", some 2⟩ := by decide +kernel
    rw [hfails] at hload
    have hrequest : (Request.load "int end hex AB\nnoop label start 7").action.run assembly =
        ended (some ⟨.duplicateLabel "start", some 2⟩) .done next := run_bind_ended hload rfl
    rw [hload, show last = next from (Assembly.answer_of_run hrequest).2]
    rfl
  obtain ⟨-, hchunk, hstill⟩ := cut_of_load_error hrunning (by decide) hrun
  refine ⟨hrunning, hrun, by decide +kernel, by decide +kernel, by decide +kernel, ?_, (hstill []).2 .emit⟩
  rw [hchunk, hcount]

end RegisterMachine
