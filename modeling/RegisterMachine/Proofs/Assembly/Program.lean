import RegisterMachine.Proofs.Assembly.Linking
import RegisterMachine.Proofs.Item.Meaning

/-!
# Programs

What the chunks that were loaded into one assembly make together.  Their items are read as one sequence
(`Chunk.joined`), which is what their tokens mean (`meansAll_of_loads`): it alone says which labels there are, whether
the assembly can be linked, and which bytes it emits, however the source is split into chunks (`emit_of_loads`).
-/

namespace RegisterMachine

open Assembling
open LoadedItem (plain)

/-! ### Loading chunks -/

namespace Chunk

/-- The items alone. -/
def plain (chunk : Chunk) : List Item := chunk.items.map fun entry => entry.item

/-- The items of several chunks, read as one sequence. -/
def joined (sources : List String) : List Item := sources.flatMap fun source => (ofSource source).plain

@[simp] theorem joined_nil : joined [] = [] := rfl

@[simp] theorem joined_cons (source : String) (sources : List String) :
    joined (source :: sources) = (ofSource source).plain ++ joined sources := List.flatMap_cons

/-- The items of chunks that read to their ends are what their tokens mean. -/
theorem exists_meansAll_joined {sources : List String} (h : ∀ source ∈ sources, (ofSource source).failure = none) :
    ∃ items, MeansAll (sources.flatMap tokensOf) items ∧ (items.map fun entry => entry.item) = joined sources := by
  induction sources with
  | nil => exact ⟨[], .nil, rfl⟩
  | cons source sources ih =>
    rw [List.forall_mem_cons] at h
    obtain ⟨items, hmeans, hitems⟩ := ih h.2
    have hsource : ofSource source = ⟨(ofSource source).items, none⟩ := congrArg (Chunk.mk _) h.1
    refine ⟨(ofSource source).items ++ items, ?_, ?_⟩
    · rw [List.flatMap_cons]
      exact (ofSource_eq_iff.1 hsource).append hmeans
    · rw [List.map_append, hitems, joined_cons, plain]

end Chunk

/-- An item that is not refused defines no label a second time. -/
private theorem fresh_of_refusal?_eq_none {loaded : List Item} {item : Item} {name : String}
    (h : item.refusal? loaded = none) (hname : item.definition? = some name) : name ∉ Image.definitions loaded := by
  intro hmem
  cases item with
  | label other =>
    cases hname
    rw [Item.refusal?, if_pos hmem] at h
    cases h
  | _ => cases hname

namespace SourceItem

/-- All items are taken unless one is refused. -/
theorem taken_eq_self {loaded : List Item} {items : List SourceItem} (h : (taken loaded items).2 = none) :
    (taken loaded items).1 = items := by
  induction items generalizing loaded with
  | nil => rfl
  | cons item items ih =>
    rw [taken] at h ⊢
    cases hrefusal : item.item.refusal? loaded with
    | some cause =>
      rw [hrefusal] at h
      cases h
    | none =>
      rw [hrefusal] at h
      exact congrArg (item :: ·) (ih h)

/-- Taking items keeps the labels distinct. -/
theorem nodup_of_taken {loaded : List Item} {items : List SourceItem} (h : (taken loaded items).2 = none)
    (hloaded : (Image.definitions loaded).Nodup) :
    (Image.definitions (loaded ++ items.map fun entry => entry.item)).Nodup := by
  induction items generalizing loaded with
  | nil => simpa using hloaded
  | cons item items ih =>
    rw [taken] at h
    cases hrefusal : item.item.refusal? loaded with
    | some cause =>
      rw [hrefusal] at h
      cases h
    | none =>
      rw [hrefusal] at h
      have hnext : (Image.definitions (loaded ++ [item.item])).Nodup := by
        rw [Image.definitions_append, Image.definitions_singleton, List.nodup_append]
        refine ⟨hloaded, ?_, ?_⟩
        · cases item.item.definition? <;> simp
        · intro name hname other hother heq
          subst heq
          exact fresh_of_refusal?_eq_none hrefusal (Option.mem_toList.1 hother) hname
      have hall := ih h hnext
      rw [List.append_assoc] at hall
      exact hall

/-- Items with distinct labels that fit in 32 bits are all taken. -/
theorem taken_eq_none {loaded : List Item} {items : List SourceItem}
    (hnodup : (Image.definitions (loaded ++ items.map fun entry => entry.item)).Nodup)
    (hsize : Image.size (loaded ++ items.map fun entry => entry.item) < 4294967296) :
    (taken loaded items).2 = none := by
  induction items generalizing loaded with
  | nil => rfl
  | cons item items ih =>
    have hsplit : loaded ++ ((item :: items).map fun entry => entry.item) =
        loaded ++ [item.item] ++ items.map fun entry => entry.item := by simp
    have hfits : Image.size loaded < 4294967296 := by
      rw [Image.size_append] at hsize
      omega
    have hrefusal : item.item.refusal? loaded = none := by
      cases hitem : item.item with
      | label name =>
        have hfresh : name ∉ Image.definitions loaded := by
          intro hname
          rw [Image.definitions_append, List.nodup_append] at hnodup
          refine hnodup.2.2 name hname name ?_ rfl
          simp [Image.definitions, hitem, Item.definition?]
        rw [Item.refusal?, if_neg hfresh, if_pos hfits]
      | reference name => rw [Item.refusal?, if_pos hfits]
      | _ => rfl
    rw [hsplit] at hnodup hsize
    rw [taken, hrefusal]
    exact ih hnodup hsize

end SourceItem

variable {assembly last : Assembly} {linked waiting : List LoadedItem}

/-- A chunk that meets no error is loaded as a whole. -/
theorem run_load_of_error?_eq_none (h : assembly.Holds linked waiting) (hrunning : assembly.halted = false)
    {source : String} (herror : (Chunk.ofSource source).error? (plain (linked ++ waiting)) = none) :
    ∃ last, (load source).run assembly = .ok () last ∧
      last.Holds linked
        (waiting ++ (Chunk.ofSource source).items.map (⟨·, min (assembly.loads + 1) 4294967295⟩)) ∧
      last.base = assembly.base ∧ last.loads = assembly.loads + 1 ∧ last.halted = false := by
  obtain ⟨last, hload, hlast, hbase, hloads, hhalted⟩ := run_load_of_holds h hrunning source
  rw [herror] at hload hhalted
  rw [SourceItem.taken_eq_self (Option.or_eq_none_iff.1 herror).1] at hlast
  exact ⟨last, hload, hlast, hbase, hloads, hhalted⟩

/-- Several chunks that were loaded start with one that met no error. -/
private theorem exists_of_forM_load_cons (h : assembly.Holds linked waiting) (hrunning : assembly.halted = false)
    {source : String} {sources : List String} (hrun : (forM (source :: sources) load).run assembly = .ok () last) :
    (Chunk.ofSource source).error? (plain (linked ++ waiting)) = none ∧
      ∃ next, next.Holds linked
          (waiting ++ (Chunk.ofSource source).items.map (⟨·, min (assembly.loads + 1) 4294967295⟩)) ∧
        next.base = assembly.base ∧ next.halted = false ∧ (forM sources load).run next = .ok () last := by
  rw [List.forM_cons] at hrun
  cases herror : (Chunk.ofSource source).error? (plain (linked ++ waiting)) with
  | some error =>
    obtain ⟨next, hload, -⟩ := run_load_of_holds h hrunning source
    rw [herror] at hload
    rw [run_bind_of_error hload] at hrun
    cases hrun
  | none =>
    obtain ⟨next, hload, hnext, hbase, -, hhalted⟩ := run_load_of_error?_eq_none h hrunning herror
    rw [run_bind_of_ok hload] at hrun
    exact ⟨rfl, next, hnext, hbase, hhalted, hrun⟩

/-- Chunks that were loaded read to their ends. -/
theorem failure_of_forM_load (h : assembly.Holds linked waiting) (hrunning : assembly.halted = false)
    {sources : List String} (hrun : (forM sources load).run assembly = .ok () last) :
    ∀ source ∈ sources, (Chunk.ofSource source).failure = none := by
  induction sources generalizing assembly waiting with
  | nil => exact List.forall_mem_nil _
  | cons source sources ih =>
    obtain ⟨herror, next, hnext, -, hhalted, hrest⟩ := exists_of_forM_load_cons h hrunning hrun
    exact List.forall_mem_cons.2 ⟨(Option.or_eq_none_iff.1 herror).2, ih hnext hhalted hrest⟩

/-- The names of the labels in an assembly are distinct, and its items are those of the chunks that were loaded. -/
theorem holds_of_forM_load (h : assembly.Holds linked waiting) (hrunning : assembly.halted = false)
    (hnodup : (Image.definitions (plain (linked ++ waiting))).Nodup) {sources : List String}
    (hrun : (forM sources load).run assembly = .ok () last) :
    ∃ more, last.Holds linked (waiting ++ more) ∧ plain more = Chunk.joined sources ∧ last.base = assembly.base ∧
      last.halted = false ∧ (Image.definitions (plain (linked ++ (waiting ++ more)))).Nodup := by
  induction sources generalizing assembly waiting with
  | nil =>
    cases hrun
    refine ⟨[], ?_, rfl, rfl, hrunning, ?_⟩
    · rw [List.append_nil]
      exact h
    · rw [List.append_nil]
      exact hnodup
  | cons source sources ih =>
    obtain ⟨herror, next, hnext, hbase, hhalted, hrest⟩ := exists_of_forM_load_cons h hrunning hrun
    have htaken := (Option.or_eq_none_iff.1 herror).1
    have hdistinct := SourceItem.nodup_of_taken htaken hnodup
    obtain ⟨more, hlast, hmore, hbaseLast, hhaltedLast, hall⟩ := ih hnext hhalted (by
      rw [LoadedItem.plain_append_append, LoadedItem.plain_map]
      exact hdistinct) hrest
    rw [List.append_assoc] at hlast hall
    refine ⟨_, hlast, ?_, hbaseLast.trans hbase, hhaltedLast, hall⟩
    rw [LoadedItem.plain_append, LoadedItem.plain_map, hmore, Chunk.joined_cons, Chunk.plain]

/-- Chunks that read to their ends can be loaded if their labels are distinct and the code fits in 32 bits. -/
theorem run_forM_load_of_holds (h : assembly.Holds linked waiting) (hrunning : assembly.halted = false)
    {sources : List String} (hread : ∀ source ∈ sources, (Chunk.ofSource source).failure = none)
    (hnodup : (Image.definitions (plain (linked ++ waiting) ++ Chunk.joined sources)).Nodup)
    (hsize : Image.size (plain (linked ++ waiting) ++ Chunk.joined sources) < 4294967296) :
    ∃ last, (forM sources load).run assembly = .ok () last := by
  induction sources generalizing assembly waiting with
  | nil => exact ⟨assembly, rfl⟩
  | cons source sources ih =>
    rw [Chunk.joined_cons, ← List.append_assoc] at hnodup hsize
    have htaken : (SourceItem.taken (plain (linked ++ waiting)) (Chunk.ofSource source).items).2 = none := by
      apply SourceItem.taken_eq_none
      · rw [Image.definitions_append] at hnodup
        exact (List.nodup_append.1 hnodup).1
      · rw [Image.size_append] at hsize
        exact Nat.lt_of_le_of_lt (Nat.le_add_right _ _) hsize
    have herror : (Chunk.ofSource source).error? (plain (linked ++ waiting)) = none := by
      rw [Chunk.error?, htaken, Option.none_or]
      exact hread source List.mem_cons_self
    obtain ⟨next, hload, hnext, -, -, hhalted⟩ := run_load_of_error?_eq_none h hrunning herror
    have hplain : plain (linked ++ (waiting ++
        (Chunk.ofSource source).items.map (⟨·, min (assembly.loads + 1) 4294967295⟩))) =
          plain (linked ++ waiting) ++ (Chunk.ofSource source).plain := by
      rw [LoadedItem.plain_append_append, LoadedItem.plain_map, Chunk.plain]
    obtain ⟨last, hlast⟩ := ih hnext hhalted (fun other hother => hread other (List.mem_cons_of_mem _ hother))
      (by rwa [hplain]) (by rwa [hplain])
    refine ⟨last, ?_⟩
    rw [List.forM_cons, run_bind_of_ok hload]
    exact hlast

/-- Chunks that were loaded into an empty assembly make its items. -/
theorem holds_of_loads {base : Int} {sources : List String}
    (hloads : (forM sources load).run (Assembly.empty base) = .ok () assembly) :
    ∃ items, assembly.Holds [] items ∧ plain items = Chunk.joined sources ∧ assembly.base = base ∧
      assembly.halted = false ∧ (Image.definitions (Chunk.joined sources)).Nodup := by
  obtain ⟨items, hitems, hplain, hbase, hrunning, hnodup⟩ :=
    holds_of_forM_load (Assembly.holds_empty base) rfl List.nodup_nil hloads
  rw [List.nil_append] at hitems hnodup
  rw [List.nil_append, hplain] at hnodup
  exact ⟨items, hitems, hplain, hbase, hrunning, hnodup⟩

section Loads

variable {base : Int} {sources : List String}

theorem label?_of_loads (hloads : (forM sources load).run (Assembly.empty base) = .ok () assembly) (name : String) :
    assembly.label? name = Image.offset? name (Chunk.joined sources) := by
  obtain ⟨items, hitems, hplain, -⟩ := holds_of_loads hloads
  rw [← hplain]
  exact hitems.labels_eq name

/-- The items of chunks that were loaded are what their tokens mean, one chunk after the other, and tokens mean no
other items (`MeansAll.unique`). -/
theorem meansAll_of_loads (hloads : (forM sources load).run (Assembly.empty base) = .ok () assembly) :
    ∃ items, MeansAll (sources.flatMap Chunk.tokensOf) items ∧
      (items.map fun entry => entry.item) = Chunk.joined sources :=
  Chunk.exists_meansAll_joined (failure_of_forM_load (Assembly.holds_empty base) rfl hloads)

theorem size_code_of_loads (hloads : (forM sources load).run (Assembly.empty base) = .ok () assembly) :
    assembly.code.size = Image.size (Chunk.joined sources) := by
  obtain ⟨items, hitems, hplain, -⟩ := holds_of_loads hloads
  rw [hitems.size_code, List.nil_append, hplain]

end Loads

/-! ### Linking them -/

/-- Items that wait in an assembly with a base of 32 bits can be linked exactly if each label they refer to is defined
and its address is at most the largest one. -/
private theorem unlinkable?_eq_none_iff_of_size {base : Int} (hbase : -2147483648 ≤ base) {items : List LoadedItem}
    (hsize : Image.size (plain items) < 2147483648) :
    LoadedItem.unlinkable? base [] items = none ↔ ∀ name ∈ Image.references (plain items),
      name ∈ Image.definitions (plain items) ∧ Image.address base (plain items) name ≤ 2147483647 := by
  rw [LoadedItem.unlinkable?_eq_none_iff, List.nil_append]
  apply forall₂_congr
  intro name hname
  rw [Image.address]
  cases hoffset : Image.offset? name (plain items) with
  | none => simp [Image.offset?_eq_none_iff.1 hoffset]
  | some offset =>
    have hle := Image.offset?_le_size hoffset
    have hdefined := Image.mem_definitions_of_offset?_eq_some hoffset
    simp only [Option.some.injEq, exists_eq_left', Option.getD_some, hdefined, true_and]
    omega

/-- What was loaded makes a program if the labels it refers to are defined, and all of it fits behind the base. -/
theorem exists_program_of_loads {base : Int} {sources : List String} (hbase : -2147483648 ≤ base)
    (hloads : (forM sources load).run (Assembly.empty base) = .ok () assembly)
    (hdefined : ∀ name ∈ Image.references (Chunk.joined sources), name ∈ Image.definitions (Chunk.joined sources))
    (hsize : Image.size (Chunk.joined sources) < 2147483648)
    (hfits : base + Image.size (Chunk.joined sources) ≤ 2147483647) :
    ∃ program last, emit.run assembly = .ok program last ∧ program.toList = Image.bytes base (Chunk.joined sources) := by
  obtain ⟨items, hitems, hplain, hassembly, hrunning, -⟩ := holds_of_loads hloads
  have hnone : LoadedItem.unlinkable? assembly.base [] items = none := by
    rw [hassembly, unlinkable?_eq_none_iff_of_size hbase (by rwa [hplain]), hplain]
    intro name hname
    exact ⟨hdefined name hname, Int.le_trans (Image.address_le base _ name) hfits⟩
  obtain ⟨program, hprogram, hemit⟩ := run_emit_of_linkable hitems hrunning hnone
  rw [List.nil_append, hplain, hassembly] at hprogram
  exact ⟨program, _, hemit, hprogram⟩

/-- Chunks that read to their ends make a program if their labels are distinct, those they refer to are defined, and
the whole program fits behind the base. -/
theorem exists_program (base : Int) (hbase : -2147483648 ≤ base) {sources : List String}
    (hread : ∀ source ∈ sources, (Chunk.ofSource source).failure = none)
    (hnodup : (Image.definitions (Chunk.joined sources)).Nodup)
    (hdefined : ∀ name ∈ Image.references (Chunk.joined sources), name ∈ Image.definitions (Chunk.joined sources))
    (hsize : Image.size (Chunk.joined sources) < 2147483648)
    (hfits : base + Image.size (Chunk.joined sources) ≤ 2147483647) :
    ∃ assembly program last, (forM sources load).run (Assembly.empty base) = .ok () assembly ∧
      emit.run assembly = .ok program last ∧ program.toList = Image.bytes base (Chunk.joined sources) := by
  obtain ⟨assembly, hloads⟩ :=
    run_forM_load_of_holds (Assembly.holds_empty base) rfl hread hnodup (Nat.lt_trans hsize (by decide))
  obtain ⟨program, last, hemit, hprogram⟩ := exists_program_of_loads hbase hloads hdefined hsize hfits
  exact ⟨assembly, program, last, hloads, hemit, hprogram⟩

/-- An assembly is the linked image of all items that were loaded into it.  Its labels stand for the total sizes of
the items in front of their definitions, and it can be emitted exactly if each label that some chunk refers to is
defined in some chunk, in whichever order, and its address is at most the largest one. -/
theorem emit_of_loads {base : Int32} {sources : List String} {assembly : Assembly}
    (hloads : (forM sources load).run (Assembly.empty base.toInt) = .ok () assembly)
    (hsize : assembly.code.size < 2147483648) :
    assembly.code.size = Image.size (Chunk.joined sources) ∧
    (∀ front name back, Chunk.joined sources = front ++ .label name :: back →
      assembly.label? name = some (Image.size front)) ∧
    (∀ name, assembly.label? name = none ↔ name ∉ Image.definitions (Chunk.joined sources)) ∧
    assembly.labelList.Pairwise (fun first second => first.1 < second.1) ∧
    (∀ name offset, (name, offset) ∈ assembly.labelList ↔ assembly.label? name = some offset) ∧
    ((∃ program last, emit.run assembly = .ok program last) ↔
      ∀ name ∈ Image.references (Chunk.joined sources), name ∈ Image.definitions (Chunk.joined sources) ∧
        Image.address base.toInt (Chunk.joined sources) name ≤ 2147483647) ∧
    (∀ program last, emit.run assembly = .ok program last →
      program.toList = Image.bytes base.toInt (Chunk.joined sources)) := by
  obtain ⟨items, hitems, hplain, hbase, hrunning, hnodup⟩ := holds_of_loads hloads
  have hlabels (name : String) : assembly.label? name = Image.offset? name (Chunk.joined sources) := by
    rw [← hplain]
    exact hitems.labels_eq name
  have hlength : assembly.code.size = Image.size (Chunk.joined sources) := by
    rw [hitems.size_code, List.nil_append, hplain]
  have hwaiting : Image.size (plain items) < 2147483648 := by rwa [hplain, ← hlength]
  have hlinkable := unlinkable?_eq_none_iff_of_size base.le_toInt hwaiting
  rw [hplain] at hlinkable
  refine ⟨hlength, ?_, ?_, ?_, ?_, ?_, ?_⟩
  · intro front name back hsplit
    rw [hlabels, hsplit]
    exact Image.offset?_of_nodup (by rwa [← hsplit])
  · intro name
    rw [hlabels, Image.offset?_eq_none_iff]
  · have hordered : assembly.labels.toList.Pairwise (fun first second => compare first.1 second.1 = .lt) :=
      Std.TreeMap.ordered_keys_toList
    exact hordered.imp fun hlt => compareOfLessAndEq_eq_lt.1 hlt
  · intro name offset
    exact Std.TreeMap.mem_toList_iff_getElem?_eq_some
  · rw [exists_run_emit_iff hitems hrunning, hbase, hlinkable]
  · intro program last hrun
    rw [toList_of_run_emit hitems hrunning hrun, List.nil_append, hplain, hbase]

/-- Each chunk refers to a label that the other one defines. -/
theorem emit_of_loads_two_chunks : ∃ assembly program last,
    (forM ["int end label start noop", "hex AB int start label end"] load).run (Assembly.empty (10 : Int32).toInt) =
      .ok () assembly ∧
    assembly.code.size < 2147483648 ∧ assembly.label? "end" = some 10 ∧
    emit.run assembly = .ok program last ∧ program.toList = [20, 0, 0, 0, 0, 171, 14, 0, 0, 0] := by
  have hjoined : Chunk.joined ["int end label start noop", "hex AB int start label end"] =
      [.reference "end", .label "start", .opcode .noop, .bytes [171], .reference "start", .label "end"] := by
    decide +kernel
  have hread : ∀ source ∈ ["int end label start noop", "hex AB int start label end"],
      (Chunk.ofSource source).failure = none := by decide +kernel
  obtain ⟨assembly, hloads⟩ := run_forM_load_of_holds (Assembly.holds_empty (10 : Int32).toInt) rfl hread
    (by rw [hjoined]; decide) (by rw [hjoined]; decide)
  obtain ⟨items, hitems, hplain, -⟩ := holds_of_loads hloads
  have hcode : assembly.code.size = 10 := by
    rw [hitems.size_code, List.nil_append, hplain, hjoined]
    rfl
  have hsize : assembly.code.size < 2147483648 := by omega
  obtain ⟨-, hlabels, -, -, -, hemit, hbytes⟩ := emit_of_loads hloads hsize
  rw [hjoined] at hlabels hemit hbytes
  obtain ⟨program, last, hrun⟩ := hemit.2 (by decide)
  exact ⟨assembly, program, last, hloads, hsize,
    hlabels [.reference "end", .label "start", .opcode .noop, .bytes [171], .reference "start"] "end" [] rfl, hrun,
    (hbytes program last hrun).trans (by decide)⟩

end RegisterMachine
