import RegisterMachine.Proofs.Assembly.History
import RegisterMachine.Proofs.Assembly.Program
import RegisterMachine.Proofs.Item.Reading

/-!
# Joined sources

Where one source ends and the next one begins is of no consequence: two texts loaded one after the other make the
assembly that they make in one text with a newline between them (`load_of_joined`).  Only the chunks and the lines
that errors report tell the two assemblies apart.
-/

namespace RegisterMachine

open Assembling
open LoadedItem (plain)

/-! ### Taking the items of two texts -/

namespace SourceItem

theorem taken_append {loaded : List Item} {front : List SourceItem} (h : (taken loaded front).2 = none)
    (back : List SourceItem) :
    taken loaded (front ++ back) =
      (front ++ (taken (loaded ++ front.map fun entry => entry.item) back).1,
        (taken (loaded ++ front.map fun entry => entry.item) back).2) := by
  induction front generalizing loaded with
  | nil => rw [List.nil_append, List.map_nil, List.append_nil, List.nil_append]
  | cons item front ih =>
    rw [taken] at h
    rw [List.cons_append, taken]
    cases hrefusal : item.item.refusal? loaded with
    | some cause =>
      rw [hrefusal] at h
      cases h
    | none =>
      rw [hrefusal] at h
      dsimp only
      rw [ih h, List.append_assoc]
      rfl

/-- Whether an item is taken does not depend on its line. -/
theorem taken_later (lines : Nat) (loaded : List Item) (items : List SourceItem) :
    taken loaded (items.map (later lines)) =
      ((taken loaded items).1.map (later lines), (taken loaded items).2.map (AssemblyError.later lines)) := by
  induction items generalizing loaded with
  | nil => rfl
  | cons item items ih =>
    have hitem : (item.later lines).item = item.item := rfl
    rw [List.map_cons, taken, taken, hitem]
    cases item.item.refusal? loaded with
    | some cause => rfl
    | none =>
      dsimp only
      rw [ih]
      rfl

/-- An item that is refused is reported on its line. -/
theorem exists_line_of_taken {loaded : List Item} {items : List SourceItem} {error : AssemblyError}
    (h : (taken loaded items).2 = some error) : ∃ cause line, error = ⟨cause, some line⟩ := by
  induction items generalizing loaded with
  | nil => cases h
  | cons item items ih =>
    rw [taken] at h
    cases hrefusal : item.item.refusal? loaded with
    | some cause =>
      rw [hrefusal] at h
      cases h
      exact ⟨cause, item.line, rfl⟩
    | none =>
      rw [hrefusal] at h
      exact ih h

theorem map_item_later (lines : Nat) (items : List SourceItem) :
    ((items.map (later lines)).map fun entry => entry.item) = items.map fun entry => entry.item := by
  rw [List.map_map]
  rfl

end SourceItem

namespace Chunk

variable {loaded : List Item} {first second : String}

/-- The second text meets its error further on. -/
theorem error?_append (hfirst : (ofSource first).error? loaded = none)
    (hlines : (first ++ "\n" ++ second).toList.count '\n' + 1 < 4294967296) :
    (ofSource (first ++ "\n" ++ second)).error? loaded =
      ((ofSource second).error? (loaded ++ (ofSource first).plain)).map
        (AssemblyError.later (first.toList.count '\n' + 1)) := by
  obtain ⟨htaken, hfailure⟩ := Option.or_eq_none_iff.1 hfirst
  rw [ofSource_append hfailure hlines, error?, error?, Option.map_or]
  dsimp only [later]
  rw [SourceItem.taken_append htaken, SourceItem.taken_later, plain]

/-- The same items are taken. -/
theorem plain_taken_append (hfirst : (ofSource first).error? loaded = none)
    (hlines : (first ++ "\n" ++ second).toList.count '\n' + 1 < 4294967296) :
    ((SourceItem.taken loaded (ofSource (first ++ "\n" ++ second)).items).1.map fun entry => entry.item) =
      (ofSource first).plain ++
        (SourceItem.taken (loaded ++ (ofSource first).plain) (ofSource second).items).1.map
          fun entry => entry.item := by
  obtain ⟨htaken, hfailure⟩ := Option.or_eq_none_iff.1 hfirst
  rw [ofSource_append hfailure hlines]
  dsimp only [later]
  rw [SourceItem.taken_append htaken, SourceItem.taken_later, List.map_append, SourceItem.map_item_later, plain]

/-- The error of a chunk has a line. -/
theorem exists_line_of_error? {source : String} (hlines : source.toList.count '\n' + 1 < 4294967296)
    {error : AssemblyError} (h : (ofSource source).error? loaded = some error) :
    ∃ cause line, error = ⟨cause, some line⟩ := by
  rcases Option.or_eq_some_iff.1 h with htaken | ⟨-, hfailure⟩
  · exact SourceItem.exists_line_of_taken htaken
  · rw [ofSource_eq_ofTokens hlines] at hfailure
    exact exists_line_of_failure hfailure

end Chunk

/-! ### Histories of the same items -/

/-- The histories differ at most in the chunks and the lines of their items. -/
structure History.Resembles (history other : History) : Prop where
  plain_eq : plain history.items = plain other.items
  halted_eq : history.halted = other.halted

namespace History.Resembles

variable {history other : History}

theorem load (h : history.Resembles other) (source : String) :
    (history.load source).Resembles (other.load source) := by
  unfold History.load
  rw [← h.halted_eq]
  cases history.halted with
  | true => exact h
  | false =>
    constructor
    · simp only [Bool.false_eq_true, if_false, LoadedItem.plain_append, LoadedItem.plain_map, h.plain_eq]
    · simp only [Bool.false_eq_true, if_false, h.plain_eq]

theorem foldl_load (h : history.Resembles other) (sources : List String) :
    (sources.foldl History.load history).Resembles (sources.foldl History.load other) := by
  induction sources generalizing history other with
  | nil => exact h
  | cons source sources ih => exact ih (h.load source)

/-- References that cannot be linked may be reported otherwise, but the program is the same. -/
theorem answer_emit_iff (h : history.Resembles other) (base : Int) (reply : Request.Reply) :
    history.answer base .emit = .ok reply ↔ other.answer base .emit = .ok reply := by
  have hlinkable : history.unlinkable? base = none ↔ other.unlinkable? base = none := by
    unfold unlinkable?
    rw [← h.halted_eq]
    cases history.halted with
    | true => exact Iff.rfl
    | false =>
      simp only [Bool.false_eq_true, if_false, LoadedItem.unlinkable?_eq_none_iff, List.nil_append, h.plain_eq]
  unfold History.answer
  rw [h.plain_eq]
  cases hfirst : history.unlinkable? base with
  | none => rw [hlinkable.1 hfirst]
  | some error =>
    cases hsecond : other.unlinkable? base with
    | none =>
      rw [hlinkable.2 hsecond] at hfirst
      cases hfirst
    | some cause => exact iff_of_false nofun nofun

end History.Resembles

/-! ### Assemblies of the same items -/

/-- The assemblies hold the same items, and the same ones of them are linked.  The chunks and the lines of those that
wait may differ. -/
structure Assembly.Resembles (assembly other : Assembly) : Prop where
  base_eq : assembly.base = other.base
  halted_eq : assembly.halted = other.halted
  holds : ∃ linked waiting others, assembly.Holds linked waiting ∧ other.Holds linked others ∧
    plain waiting = plain others ∧ LoadedItem.unlinkable? assembly.base [] linked = none

/-- Items that agree but for their lines, and for what the tag does not keep of their chunks, make references that agree
but for the same. -/
theorem LoadedItem.map_references {α : Type} (tag : Nat → α) {waiting others : List LoadedItem}
    (h : waiting.map (fun entry => (entry.item, tag entry.chunk)) =
      others.map fun entry => (entry.item, tag entry.chunk)) (offset : Nat) :
    (references offset waiting).map (fun reference => (reference.offset, reference.name, tag reference.chunk)) =
      (references offset others).map fun reference => (reference.offset, reference.name, tag reference.chunk) := by
  induction waiting generalizing others offset with
  | nil => rw [List.map_eq_nil_iff.1 h.symm]
  | cons entry waiting ih =>
    obtain ⟨other, others, rfl, hentry, hothers⟩ := List.map_eq_cons_iff.1 h.symm
    obtain ⟨hitem, hchunk⟩ := Prod.mk.inj hentry
    rw [references, references, hitem]
    cases entry.item.reference? with
    | none => exact ih hothers.symm _
    | some name =>
      rw [List.map_cons, List.map_cons, ih hothers.symm, hchunk]

namespace Assembly.Resembles

variable {assembly other : Assembly}

theorem code_eq (h : assembly.Resembles other) : assembly.code = other.code := by
  obtain ⟨linked, waiting, others, hassembly, hother, hplain, -⟩ := h.holds
  rw [← Array.toList_inj, hassembly.code_eq, hother.code_eq, h.base_eq, LoadedItem.plain_append,
    LoadedItem.plain_append, hplain]

theorem labelList_eq (h : assembly.Resembles other) : assembly.labelList = other.labelList := by
  obtain ⟨linked, waiting, others, hassembly, hother, hplain, -⟩ := h.holds
  apply Assembly.labelList_eq_of_label?_eq
  intro name
  exact (hassembly.labels_eq name).trans (by
    rw [LoadedItem.plain_append, hplain, ← LoadedItem.plain_append]
    exact (hother.labels_eq name).symm)

theorem pending_eq (h : assembly.Resembles other) :
    assembly.pending.toList.map (fun reference => (reference.offset, reference.name)) =
      other.pending.toList.map (fun reference => (reference.offset, reference.name)) := by
  obtain ⟨linked, waiting, others, hassembly, hother, hplain, -⟩ := h.holds
  have hitems : waiting.map (fun entry => (entry.item, ())) = others.map fun entry => (entry.item, ()) := by
    have hpaired := congrArg (List.map fun item => (item, ())) hplain
    rwa [plain, plain, List.map_map, List.map_map] at hpaired
  have hpairs := congrArg (List.map fun triple : Nat × String × Unit => (triple.1, triple.2.1))
    (LoadedItem.map_references (fun _ => ()) hitems (Image.size (plain linked)))
  rw [List.map_map, List.map_map] at hpairs
  rw [hassembly.pending_eq, hother.pending_eq]
  exact hpairs

/-- Whatever is loaded into both, they emit the same programs. -/
theorem answer_emit_iff (h : assembly.Resembles other) (requests : List Request) (reply : Request.Reply) :
    (assembly.afterRequests requests).answer .emit = .ok reply ↔
      (other.afterRequests requests).answer .emit = .ok reply := by
  obtain ⟨linked, waiting, others, hassembly, hother, hplain, hlinked⟩ := h.holds
  have hfollows : assembly.Follows ⟨linked ++ waiting, assembly.loads, assembly.halted⟩ :=
    ⟨rfl, rfl, linked, waiting, rfl, hassembly, hlinked⟩
  have hfollowsOther : other.Follows ⟨linked ++ others, other.loads, other.halted⟩ :=
    ⟨rfl, rfl, linked, others, rfl, hother, h.base_eq ▸ hlinked⟩
  have hresembles : History.Resembles ⟨linked ++ waiting, assembly.loads, assembly.halted⟩
      ⟨linked ++ others, other.loads, other.halted⟩ := by
    refine ⟨?_, h.halted_eq⟩
    dsimp only
    rw [LoadedItem.plain_append, hplain, LoadedItem.plain_append]
  obtain ⟨hlast, hbase⟩ := hfollows.afterRequests requests
  obtain ⟨hlastOther, hbaseOther⟩ := hfollowsOther.afterRequests requests
  rw [(hlast.perform .emit).1, (hlastOther.perform .emit).1, hbase, hbaseOther, h.base_eq]
  exact (hresembles.foldl_load _).answer_emit_iff _ _

end Assembly.Resembles

/-! ### Loading two texts -/

variable {assembly middle : Assembly} {linked waiting : List LoadedItem} {first second : String}

/-- A text that is loaded without error is taken as a whole. -/
theorem taken_of_run_load (h : assembly.Holds linked waiting) (hrun : (load first).run assembly = .ok () middle) :
    assembly.halted = false ∧ (Chunk.ofSource first).error? (plain (linked ++ waiting)) = none ∧
    middle.Holds linked
      (waiting ++ (Chunk.ofSource first).items.map (⟨·, min (assembly.loads + 1) 4294967295⟩)) ∧
    middle.base = assembly.base ∧ middle.loads = assembly.loads + 1 ∧ middle.halted = false := by
  cases hrunning : assembly.halted with
  | true =>
    rw [run_load_of_halted hrunning] at hrun
    cases hrun
  | false =>
    cases herror : (Chunk.ofSource first).error? (plain (linked ++ waiting)) with
    | some error =>
      obtain ⟨last, hload, -⟩ := run_load_of_holds h hrunning first
      rw [hload, herror] at hrun
      cases hrun
    | none =>
      obtain ⟨last, hload, hlast⟩ := run_load_of_error?_eq_none h hrunning herror
      rw [hload] at hrun
      cases hrun
      exact ⟨rfl, rfl, hlast⟩

/-- An assembly that takes the first text takes the second one as it does behind the first one in one text. -/
theorem exists_run_load_joined (h : assembly.Holds linked waiting)
    (hlinked : LoadedItem.unlinkable? assembly.base [] linked = none)
    (hlines : (first ++ "\n" ++ second).toList.count '\n' + 1 < 4294967296)
    (hfirst : (load first).run assembly = .ok () middle) :
    ∃ (error? : Option AssemblyError) (separate joined : Assembly),
      (load second).run middle = ended error? () separate ∧
      (load (first ++ "\n" ++ second)).run assembly =
        ended (error?.map (AssemblyError.later (first.toList.count '\n' + 1))) () joined ∧
      (∀ error, error? = some error → ∃ cause line, error = ⟨cause, some line⟩) ∧
      separate.Resembles joined := by
  obtain ⟨hrunning, herror, hlast, hbase, -, hhalted⟩ := taken_of_run_load h hfirst
  -- Behind the items of the first text the second one is read the same way in both runs, only further on.
  obtain ⟨separate, hseparate, hholds, hbaseSeparate, -, hhaltedSeparate⟩ := run_load_of_holds hlast hhalted second
  obtain ⟨joined, hjoined, hholdsJoined, hbaseJoined, -, hhaltedJoined⟩ :=
    run_load_of_holds h hrunning (first ++ "\n" ++ second)
  rw [LoadedItem.plain_append_append, LoadedItem.plain_map] at hseparate hholds hhaltedSeparate
  rw [Chunk.error?_append herror hlines] at hjoined hhaltedJoined
  refine ⟨_, separate, joined, hseparate, hjoined, ?_, ?_⟩
  · intro error
    apply Chunk.exists_line_of_error?
    simp only [String.toList_append, List.count_append] at hlines
    omega
  · refine ⟨hbaseSeparate.trans (hbase.trans hbaseJoined.symm), ?_, linked, _, _, hholds, hholdsJoined, ?_, ?_⟩
    · rw [hhaltedSeparate, hhaltedJoined, Option.isSome_map]
      rfl
    · rw [LoadedItem.plain_append (waiting ++ _), LoadedItem.plain_append waiting, LoadedItem.plain_append waiting,
        LoadedItem.plain_map, LoadedItem.plain_map, LoadedItem.plain_map, Chunk.plain_taken_append herror hlines,
        List.append_assoc]
      rfl
    · rw [hbaseSeparate, hbase]
      exact hlinked

/-- Two texts that are loaded one after the other succeed or fail as they do in one text with a newline between them.
Either way both assemblies have the same code, the same labels and the same references to them, and whatever is loaded
then, they emit the same programs.  The error of the second text is the same one, as many lines further on as the
first text has. -/
theorem load_of_joined {base : Int} {requests : List Request} {first second : String} {middle : Assembly}
    (hlines : (first ++ "\n" ++ second).toList.count '\n' + 1 < 4294967296)
    (hfirst : (load first).run ((Assembly.empty base).afterRequests requests) = .ok () middle) :
    let assembly := (Assembly.empty base).afterRequests requests
    ∃ separate joined : Assembly,
      ((load second).run middle = .ok () separate ∧
          (load (first ++ "\n" ++ second)).run assembly = .ok () joined ∨
        ∃ cause line, (load second).run middle = .error ⟨cause, some line⟩ separate ∧
          (load (first ++ "\n" ++ second)).run assembly =
            .error ⟨cause, some (line + (1 + first.toList.count '\n'))⟩ joined) ∧
      separate.code = joined.code ∧ separate.labelList = joined.labelList ∧
      separate.pending.toList.map (fun reference => (reference.offset, reference.name)) =
        joined.pending.toList.map (fun reference => (reference.offset, reference.name)) ∧
      ∀ more reply, (separate.afterRequests more).answer .emit = .ok reply ↔
        (joined.afterRequests more).answer .emit = .ok reply := by
  intro assembly
  obtain ⟨hfollows, -⟩ := (Assembly.follows_empty base).afterRequests requests
  obtain ⟨-, -, linked, waiting, -, hholds, hlinked⟩ := hfollows
  obtain ⟨error?, separate, joined, hseparate, hjoined, hline, hresembles⟩ :=
    exists_run_load_joined hholds hlinked hlines hfirst
  refine ⟨separate, joined, ?_, hresembles.code_eq, hresembles.labelList_eq, hresembles.pending_eq,
    hresembles.answer_emit_iff⟩
  cases error? with
  | none => exact Or.inl ⟨hseparate, hjoined⟩
  | some error =>
    obtain ⟨cause, line, rfl⟩ := hline error rfl
    rw [Nat.add_comm 1]
    exact Or.inr ⟨cause, line, hseparate, hjoined⟩

/-- The first text ends inside a comment and refers to a label of the second one, which fails behind that label. -/
theorem load_of_joined_failing_text :
    let assembly := (Assembly.empty 5).afterRequests [.load "label start noop", .resolve]
    ∃ middle separate joined : Assembly,
      (load "int end\nint start // twice").run assembly = .ok () middle ∧
      (load "label end\nlabel start").run middle = .error ⟨.duplicateLabel "start", some 2⟩ separate ∧
      (load ("int end\nint start // twice" ++ "\n" ++ "label end\nlabel start")).run assembly =
        .error ⟨.duplicateLabel "start", some 4⟩ joined ∧
      separate.code = joined.code ∧ separate.labelList = joined.labelList := by
  intro assembly
  obtain ⟨hfollows, -⟩ := (Assembly.follows_empty 5).afterRequests [.load "label start noop", .resolve]
  obtain ⟨middle, hfirst, hmiddle, -⟩ := hfollows.run_load "int end\nint start // twice"
  obtain ⟨last, hsecond, -, -⟩ := hmiddle.run_load "label end\nlabel start"
  have hloads : History.unloadable? ((Request.sources [.load "label start noop", .resolve]).foldl History.load {})
      "int end\nint start // twice" = none := by decide +kernel
  have hfails : (History.load ((Request.sources [.load "label start noop", .resolve]).foldl History.load {})
      "int end\nint start // twice").unloadable? "label end\nlabel start" =
        some ⟨.duplicateLabel "start", some 2⟩ := by decide +kernel
  rw [hloads] at hfirst
  rw [hfails] at hsecond
  have hlines : ("int end\nint start // twice" ++ "\n" ++ "label end\nlabel start").toList.count '\n' + 1 <
      4294967296 := by decide +kernel
  obtain ⟨separate, joined, hruns, hcode, hlabels, -⟩ := load_of_joined hlines hfirst
  rcases hruns with ⟨hseparate, -⟩ | ⟨cause, line, hseparate, hjoined⟩
  · rw [hsecond] at hseparate
    cases hseparate
  · rw [hsecond] at hseparate
    cases hseparate
    exact ⟨middle, _, joined, hfirst, hsecond, hjoined, hcode, hlabels⟩

end RegisterMachine
