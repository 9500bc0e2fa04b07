import RegisterMachine.Assembly.Basic
import RegisterMachine.Proofs.Action
import RegisterMachine.Proofs.Assembly.Image

/-!
# Loading

An assembly holds the items that were loaded into it, in their order: those whose references are linked already, and
those that still wait for it.  Code, labels and pending references all follow from the items (`Assembly.Holds`), and
loading a chunk appends the items that can be taken (`run_load_of_holds`).
-/

namespace RegisterMachine

open Assembling

/-- An item as it was loaded, with the chunk it came in, counted from 1. -/
structure LoadedItem extends SourceItem where
  chunk : Nat
deriving DecidableEq, Repr

/-- The items alone. -/
def LoadedItem.plain (loaded : List LoadedItem) : List Item := loaded.map fun entry => entry.item

/-- The references that the items make in code that starts at the offset. -/
def LoadedItem.references (offset : Nat) : List LoadedItem → List Reference
  | [] => []
  | entry :: loaded =>
    match entry.item.reference? with
    | some name => ⟨offset, name, entry.chunk, entry.line⟩ :: references (offset + entry.item.size) loaded
    | none => references (offset + entry.item.size) loaded

open LoadedItem (plain)

@[simp] theorem LoadedItem.plain_append (front back : List LoadedItem) :
    plain (front ++ back) = plain front ++ plain back := List.map_append

theorem LoadedItem.plain_append_append (linked waiting more : List LoadedItem) :
    plain (linked ++ (waiting ++ more)) = plain (linked ++ waiting) ++ plain more := by
  rw [← List.append_assoc, plain_append]

theorem LoadedItem.plain_map (items : List SourceItem) (chunk : Nat) :
    plain (items.map (⟨·, chunk⟩)) = items.map fun entry => entry.item := by
  rw [plain, List.map_map]
  rfl

theorem LoadedItem.references_append (offset : Nat) (front back : List LoadedItem) :
    references offset (front ++ back) =
      references offset front ++ references (offset + Image.size (plain front)) back := by
  induction front generalizing offset with
  | nil => simp [references, plain, Image.size]
  | cons entry front ih =>
    have hsize : Image.size (plain (entry :: front)) = entry.item.size + Image.size (plain front) := rfl
    rw [List.cons_append, references, references, ih, hsize, ← Nat.add_assoc]
    cases entry.item.reference? <;> rfl

/-- The assembly holds the loaded items: the references of the first ones are linked, those of the others wait. -/
structure Assembly.Holds (assembly : Assembly) (linked waiting : List LoadedItem) : Prop where
  code_eq : assembly.code.toList =
    (plain linked).flatMap (Item.image (Image.address assembly.base (plain (linked ++ waiting)))) ++
      (plain waiting).flatMap Item.toBytes
  labels_eq : ∀ name : String, assembly.labels[name]? = Image.offset? name (plain (linked ++ waiting))
  pending_eq : assembly.pending.toList = LoadedItem.references (Image.size (plain linked)) waiting
  defined : ∀ name ∈ Image.references (plain linked), name ∈ Image.definitions (plain (linked ++ waiting))

variable {assembly : Assembly} {linked waiting : List LoadedItem}

theorem Assembly.holds_empty (base : Int) : (Assembly.empty base).Holds [] [] where
  code_eq := rfl
  labels_eq := fun name => Std.TreeMap.getElem?_emptyc
  pending_eq := rfl
  defined := by simp [plain, Image.references]

namespace Assembly.Holds

theorem size_code (h : assembly.Holds linked waiting) :
    assembly.code.size = Image.size (plain (linked ++ waiting)) := by
  rw [← Array.length_toList, h.code_eq, List.length_append, Image.length_flatMap_image,
    Image.length_flatMap_toBytes, LoadedItem.plain_append, Image.size_append]

theorem isSome_label?_iff (h : assembly.Holds linked waiting) (name : String) :
    (assembly.label? name).isSome = true ↔ name ∈ Image.definitions (plain (linked ++ waiting)) := by
  rw [Assembly.label?, h.labels_eq, Option.isSome_iff_ne_none, Ne, Image.offset?_eq_none_iff, Classical.not_not]

/-- The addresses of labels that are defined already stay as they are. -/
theorem address_append (h : assembly.Holds linked waiting) (base : Int) (more : List Item) {name : String}
    (hname : name ∈ Image.references (plain linked)) :
    Image.address base (plain (linked ++ waiting) ++ more) name =
      Image.address base (plain (linked ++ waiting)) name := by
  have hdefined := h.defined name hname
  cases hoffset : Image.offset? name (plain (linked ++ waiting)) with
  | none => exact absurd hdefined (Image.offset?_eq_none_iff.1 hoffset)
  | some offset => rw [Image.address, Image.address, Image.offset?_append_of_eq_some hoffset, hoffset]

/-- So what is linked keeps its image. -/
theorem flatMap_image_append (h : assembly.Holds linked waiting) (base : Int) (more : List Item) :
    (plain linked).flatMap (Item.image (Image.address base (plain (linked ++ waiting) ++ more))) =
      (plain linked).flatMap (Item.image (Image.address base (plain (linked ++ waiting)))) :=
  Image.flatMap_image_congr fun _ hname => h.address_append base more hname

/-- The items grow by one when its bytes, its label and its reference are added. -/
private theorem append (h : assembly.Holds linked waiting) {after : Assembly} (entry : LoadedItem)
    (hbase : after.base = assembly.base) (hcode : after.code = assembly.code ++ entry.item.toBytes)
    (hlabels : ∀ name : String,
      after.labels[name]? = Image.offset? name (plain (linked ++ waiting) ++ [entry.item]))
    (hpending : after.pending.toList =
      assembly.pending.toList ++ LoadedItem.references assembly.code.size [entry]) :
    after.Holds linked (waiting ++ [entry]) := by
  have hplain := LoadedItem.plain_append_append linked waiting [entry]
  have hbytes : (plain (waiting ++ [entry])).flatMap Item.toBytes =
      (plain waiting).flatMap Item.toBytes ++ entry.item.toBytes := by
    rw [LoadedItem.plain_append, List.flatMap_append]
    exact congrArg _ (List.append_nil _)
  constructor
  · rw [hcode, hbase, hplain, hbytes, Array.toList_appendList, h.code_eq, h.flatMap_image_append, List.append_assoc]
  · intro name
    rw [hlabels, hplain]
    rfl
  · rw [hpending, h.pending_eq, LoadedItem.references_append, h.size_code, LoadedItem.plain_append,
      Image.size_append]
  · intro name hname
    rw [hplain]
    rw [Image.definitions_append]
    exact List.mem_append_left _ (h.defined name hname)

end Assembly.Holds

/-- The assembly goes on where an earlier one ended: the bytes, the labels and the references of more items are
behind those that were there. -/
structure Assembly.Continues (assembly before : Assembly) (more : List LoadedItem) : Prop where
  code_eq : assembly.code.toList = before.code.toList ++ (plain more).flatMap Item.toBytes
  label?_eq : ∀ name, assembly.label? name =
    (before.label? name).or ((Image.offset? name (plain more)).map fun offset => before.code.size + offset)
  pending_eq : assembly.pending.toList = before.pending.toList ++ LoadedItem.references before.code.size more

/-- As long as nothing more is linked, more items leave alone what is there. -/
theorem Assembly.Holds.continues {last : Assembly} {more : List LoadedItem} (h : assembly.Holds linked waiting)
    (hlast : last.Holds linked (waiting ++ more)) (hbase : last.base = assembly.base) :
    last.Continues assembly more where
  code_eq := by
    rw [hlast.code_eq, h.code_eq, hbase, LoadedItem.plain_append_append, h.flatMap_image_append,
      LoadedItem.plain_append waiting more, List.flatMap_append, List.append_assoc]
  label?_eq := by
    intro name
    rw [Assembly.label?, hlast.labels_eq, LoadedItem.plain_append_append, Image.offset?_append, ← h.labels_eq,
      h.size_code, Assembly.label?]
  pending_eq := by
    rw [hlast.pending_eq, h.pending_eq, LoadedItem.references_append, h.size_code, LoadedItem.plain_append,
      Image.size_append]

/-- Assemblies in which every name stands for the same offset list the same labels. -/
theorem Assembly.labelList_eq_of_label?_eq {other : Assembly}
    (h : ∀ name, assembly.label? name = other.label? name) : assembly.labelList = other.labelList := by
  apply Std.TreeMap.Equiv.toList_eq
  apply Std.TreeMap.Equiv.of_forall_constGet?_eq
  exact h

/-- Why an item cannot be taken behind the given items.  Labels and references stand at offsets of 32 bits. -/
def Item.refusal? (loaded : List Item) : Item → Option AssemblyError.Cause
  | label name =>
    if name ∈ Image.definitions loaded then some (.duplicateLabel name)
    else if Image.size loaded < 4294967296 then none else some .addressOverflow
  | reference _ => if Image.size loaded < 4294967296 then none else some .addressOverflow
  | _ => none

private theorem mem_labels (h : assembly.Holds linked waiting) (name : String) :
    name ∈ assembly.labels ↔ name ∈ Image.definitions (plain (linked ++ waiting)) :=
  Std.TreeMap.mem_iff_isSome_getElem?.trans (h.isSome_label?_iff name)

private theorem run_checkOffset (line : Nat) (assembly : Assembly) :
    (checkOffset line).run assembly =
      if assembly.code.size < 4294967296 then .ok () assembly else .error ⟨.addressOverflow, some line⟩ assembly := by
  unfold checkOffset
  by_cases hsize : assembly.code.size < 4294967296 <;> simp [hsize]

/-- Adding an item takes it unless it is refused; then nothing changes. -/
theorem run_add_of_holds (h : assembly.Holds linked waiting) (item : SourceItem) :
    match item.item.refusal? (plain (linked ++ waiting)) with
    | some cause => (add item).run assembly = .error ⟨cause, some item.line⟩ assembly
    | none => ∃ last, (add item).run assembly = .ok () last ∧
        last.Holds linked (waiting ++ [⟨item, assembly.chunkCount⟩]) ∧
        last.base = assembly.base ∧ last.loads = assembly.loads ∧ last.halted = assembly.halted := by
  have hnone (item : Item) (name : String) (hitem : item.definition? = none) :
      assembly.labels[name]? = Image.offset? name (plain (linked ++ waiting) ++ [item]) := by
    rw [h.labels_eq, Image.offset?_append, Image.offset?, hitem, if_neg (by simp)]
    simp [Image.offset?]
  obtain ⟨item, line⟩ := item
  cases item with
  | label name =>
    simp only [Item.refusal?, ← mem_labels h, ← h.size_code]
    by_cases hdefined : name ∈ assembly.labels
    · rw [if_pos hdefined]
      simp [add, hdefined]
    · rw [if_neg hdefined]
      by_cases hsize : assembly.code.size < 4294967296
      · rw [if_pos hsize]
        refine ⟨(assembly.define name).append [], ?_, ?_, rfl, rfl, rfl⟩
        · simp [add, hdefined, run_checkOffset, hsize, Item.toBytes]
        · refine h.append ⟨⟨.label name, line⟩, _⟩ rfl rfl ?_ ?_
          · intro other
            show (assembly.labels.insert name assembly.code.size)[other]? = _
            rw [mem_labels h] at hdefined
            simp only [Std.TreeMap.getElem?_insert, Std.compare_eq_iff_eq]
            rw [Image.offset?_append, ← h.labels_eq]
            by_cases hname : name = other
            · subst hname
              rw [if_pos rfl, h.labels_eq, Image.offset?_eq_none_iff.2 hdefined, h.size_code]
              simp [Image.offset?, Item.definition?]
            · rw [if_neg hname]
              simp [Image.offset?, Item.definition?, hname]
          · simp [Assembly.append, Assembly.define, LoadedItem.references, Item.reference?]
      · rw [if_neg hsize]
        simp [add, hdefined, run_checkOffset, hsize]
  | reference name =>
    simp only [Item.refusal?, ← h.size_code]
    by_cases hsize : assembly.code.size < 4294967296
    · rw [if_pos hsize]
      refine ⟨(assembly.refer name line).append [0, 0, 0, 0], ?_, ?_, rfl, rfl, rfl⟩
      · simp [add, run_checkOffset, hsize, Item.toBytes]
      · refine h.append ⟨⟨.reference name, line⟩, _⟩ rfl rfl (fun other => hnone _ other rfl) ?_
        simp [Assembly.append, Assembly.refer, LoadedItem.references, Item.reference?]
    · rw [if_neg hsize]
      simp [add, run_checkOffset, hsize]
  | _ =>
    refine ⟨assembly.append _, rfl, ?_, rfl, rfl, rfl⟩
    refine h.append ⟨⟨_, line⟩, _⟩ rfl rfl (fun name => hnone _ name rfl) ?_
    simp [Assembly.append, LoadedItem.references, Item.reference?]

/-- The items that can be taken one after the other behind the given ones, and why the next one is refused. -/
def SourceItem.taken (loaded : List Item) : List SourceItem → List SourceItem × Option AssemblyError
  | [] => ([], none)
  | item :: items =>
    match item.item.refusal? loaded with
    | some cause => ([], some ⟨cause, some item.line⟩)
    | none =>
      let others := taken (loaded ++ [item.item]) items
      (item :: others.1, others.2)

theorem run_forM_add_of_holds (h : assembly.Holds linked waiting) (items : List SourceItem) :
    ∃ last, (forM items add).run assembly = ended (SourceItem.taken (plain (linked ++ waiting)) items).2 () last ∧
      last.Holds linked (waiting ++ (SourceItem.taken (plain (linked ++ waiting)) items).1.map
        (⟨·, assembly.chunkCount⟩)) ∧
      last.base = assembly.base ∧ last.loads = assembly.loads ∧ last.halted = assembly.halted := by
  induction items generalizing assembly waiting with
  | nil =>
    refine ⟨assembly, rfl, ?_, rfl, rfl, rfl⟩
    rw [SourceItem.taken, List.map_nil, List.append_nil]
    exact h
  | cons item items ih =>
    have hadd := run_add_of_holds h item
    rw [List.forM_cons, SourceItem.taken]
    cases hrefusal : item.item.refusal? (plain (linked ++ waiting)) with
    | some cause =>
      rw [hrefusal] at hadd
      refine ⟨assembly, run_bind_of_error hadd, ?_, rfl, rfl, rfl⟩
      rw [List.map_nil, List.append_nil]
      exact h
    | none =>
      rw [hrefusal] at hadd
      obtain ⟨next, hrun, hnext, hbase, hloads, hhalted⟩ := hadd
      have hplain := LoadedItem.plain_append_append linked waiting [⟨item, assembly.chunkCount⟩]
      have hchunk : next.chunkCount = assembly.chunkCount := by rw [Assembly.chunkCount, hloads, Assembly.chunkCount]
      obtain ⟨last, hrunLast, hlast, hbaseLast, hloadsLast, hhaltedLast⟩ := ih hnext
      rw [hplain] at hrunLast hlast
      rw [hchunk, List.append_assoc] at hlast
      refine ⟨last, (run_bind_of_ok hrun).trans hrunLast, ?_, hbaseLast.trans hbase, hloadsLast.trans hloads,
        hhaltedLast.trans hhalted⟩
      exact hlast

/-- Why a chunk cannot be loaded behind the given items: its first item that cannot be taken, or the end of its
reading. -/
def Chunk.error? (loaded : List Item) (chunk : Chunk) : Option AssemblyError :=
  (SourceItem.taken loaded chunk.items).2.or chunk.failure

private theorem run_addChunk_of_holds (h : assembly.Holds linked waiting) (chunk : Chunk) :
    ∃ last, (addChunk chunk).run assembly = ended (chunk.error? (plain (linked ++ waiting))) () last ∧
      last.Holds linked (waiting ++ (SourceItem.taken (plain (linked ++ waiting)) chunk.items).1.map
        (⟨·, assembly.chunkCount⟩)) ∧
      last.base = assembly.base ∧ last.loads = assembly.loads ∧ last.halted = assembly.halted := by
  obtain ⟨last, hrun, hlast⟩ := run_forM_add_of_holds h chunk.items
  refine ⟨last, ?_, hlast⟩
  unfold addChunk Chunk.error?
  cases hrefusal : (SourceItem.taken (plain (linked ++ waiting)) chunk.items).2 with
  | some error =>
    rw [hrefusal] at hrun
    exact run_bind_of_error hrun
  | none =>
    rw [hrefusal] at hrun
    rw [run_bind_of_ok hrun, Option.none_or]
    cases chunk.failure <;> rfl

/-- A halted assembly does not look at what it is asked. -/
theorem run_checkRunning_of_halted (h : assembly.halted = true) :
    checkRunning.run assembly = .error ⟨.halted, none⟩ assembly := by
  simp [checkRunning, h]

theorem run_load_of_halted (h : assembly.halted = true) (source : String) :
    (load source).run assembly = .error ⟨.halted, none⟩ assembly :=
  run_bind_of_error (run_checkRunning_of_halted h)

private theorem run_load (hrunning : assembly.halted = false) (source : String) :
    (load source).run assembly =
      (tryCatch (addChunk (Chunk.ofSource source)) fun error => do
        modify fun assembly => { assembly with halted := true }
        throw error).run { assembly with loads := assembly.loads + 1 } := by
  simp [load, checkRunning, hrunning]

/-- Loading a chunk appends the items that can be taken, and halts the assembly unless that is the whole chunk. -/
theorem run_load_of_holds (h : assembly.Holds linked waiting) (hrunning : assembly.halted = false) (source : String) :
    ∃ last, (load source).run assembly = ended ((Chunk.ofSource source).error? (plain (linked ++ waiting))) () last ∧
      last.Holds linked (waiting ++ (SourceItem.taken (plain (linked ++ waiting)) (Chunk.ofSource source).items).1.map
        (⟨·, min (assembly.loads + 1) 4294967295⟩)) ∧
      last.base = assembly.base ∧ last.loads = assembly.loads + 1 ∧
      last.halted = ((Chunk.ofSource source).error? (plain (linked ++ waiting))).isSome := by
  have hcounted : { assembly with loads := assembly.loads + 1 }.Holds linked waiting :=
    ⟨h.code_eq, h.labels_eq, h.pending_eq, h.defined⟩
  obtain ⟨last, hrun, hlast, hbase, hloads, hhalted⟩ := run_addChunk_of_holds hcounted (Chunk.ofSource source)
  cases herror : (Chunk.ofSource source).error? (plain (linked ++ waiting)) with
  | none =>
    rw [herror] at hrun
    refine ⟨last, ?_, hlast, hbase, hloads, hhalted.trans hrunning⟩
    rw [run_load hrunning]
    exact run_tryCatch_of_ok hrun
  | some error =>
    rw [herror] at hrun
    refine ⟨{ last with halted := true }, ?_, ⟨hlast.code_eq, hlast.labels_eq, hlast.pending_eq, hlast.defined⟩,
      hbase, hloads, rfl⟩
    rw [run_load hrunning]
    exact run_tryCatch_of_error hrun

end RegisterMachine
