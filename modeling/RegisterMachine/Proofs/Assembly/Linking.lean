import RegisterMachine.Assembly.Link
import RegisterMachine.Proofs.Assembly.Loading

/-!
# Linking

Resolving an assembly links the items that wait for it.  It fails with the first reference in the order of the items
that has no address, and then nothing changes; otherwise the code is the image of all items
(`run_resolve_of_linkable`).
-/

namespace RegisterMachine

open Assembling
open LoadedItem (plain)

/-! ### Overwriting -/

/-- Overwriting puts the new bytes in the place of as many old ones. -/
theorem toList_overwrite {code : Array UInt8} {front old new back : List UInt8}
    (hcode : code.toList = front ++ old ++ back) (hlength : old.length = new.length) :
    (overwrite code front.length new).toList = front ++ new ++ back := by
  have hsize : front.length + new.length ≤ code.size := by
    rw [← Array.length_toList, hcode, List.length_append, List.length_append]
    omega
  apply List.ext_getElem?
  intro i
  rw [Array.getElem?_toList, getElem?_overwrite hsize]
  by_cases hfront : i < front.length
  · rw [if_neg (by omega), ← Array.getElem?_toList, hcode, List.append_assoc, List.append_assoc,
      List.getElem?_append_left hfront, List.getElem?_append_left hfront]
  · have hle : front.length ≤ i := Nat.le_of_not_lt hfront
    by_cases hnew : i < front.length + new.length
    · rw [if_pos ⟨hle, hnew⟩, List.append_assoc, List.getElem?_append_right hle,
        List.getElem?_append_left (by omega)]
    · rw [if_neg (by omega), ← Array.getElem?_toList, hcode, List.append_assoc, List.append_assoc,
        List.getElem?_append_right hle, List.getElem?_append_right hle,
        List.getElem?_append_right (by omega), List.getElem?_append_right (by omega), hlength]

/-! ### Targets -/

/-- Why a reference cannot be linked in a program that is loaded at the base. -/
def Reference.error? (base : Int) (items : List Item) (reference : Reference) : Option AssemblyError :=
  match Image.offset? reference.name items with
  | none => some ⟨.undefinedLabel reference.name reference.chunk, some reference.line⟩
  | some offset =>
    if (offset : Int) ≤ 2147483647 ∧ -2147483648 ≤ base + offset ∧ base + offset ≤ 2147483647 then none
    else some ⟨.addressOverflow, none⟩

variable {assembly : Assembly} {linked waiting : List LoadedItem}

private theorem target_of_holds (h : assembly.Holds linked waiting) (reference : Reference) :
    assembly.target reference = checked (reference.error? assembly.base (plain (linked ++ waiting)))
      (Image.address assembly.base (plain (linked ++ waiting)) reference.name) := by
  unfold Assembly.target Assembly.label? Reference.error? Image.address
  rw [h.labels_eq]
  cases Image.offset? reference.name (plain (linked ++ waiting)) with
  | none => rfl
  | some offset =>
    dsimp only
    by_cases hoffset : (offset : Int) ≤ 2147483647
    · have hdistance : address? offset = some (offset : Int) := address?_eq_some_iff.2 ⟨rfl, by omega, hoffset⟩
      rw [hdistance, Option.bind_some]
      by_cases hsum : -2147483648 ≤ assembly.base + offset ∧ assembly.base + offset ≤ 2147483647
      · rw [if_pos ⟨hoffset, hsum⟩, address?, if_pos hsum]
        rfl
      · rw [if_neg (fun hall => hsum hall.2), address?, if_neg hsum]
        rfl
    · have hdistance : address? (offset : Int) = none := by
        rw [address?, if_neg (fun hall => hoffset hall.2)]
      rw [hdistance, if_neg (fun hall => hoffset hall.1)]
      rfl

private theorem targets_of_holds (h : assembly.Holds linked waiting) :
    assembly.targets = checked
      (assembly.pending.toList.findSome? (Reference.error? assembly.base (plain (linked ++ waiting))))
      (assembly.pending.toList.map fun reference =>
        (reference, Image.address assembly.base (plain (linked ++ waiting)) reference.name)) := by
  unfold Assembly.targets
  apply mapM_eq_checked
  intro reference
  rw [target_of_holds h]
  cases reference.error? assembly.base (plain (linked ++ waiting)) <;> rfl

/-! ### Patching -/

private theorem run_patch (reference : Reference) {front old back : List UInt8}
    (hoffset : reference.offset = front.length) (hlength : old.length = 4)
    (hcode : assembly.code.toList = front ++ old ++ back) (address : Int) :
    ∃ code : Array UInt8, code.toList = front ++ Word.toBytes (.ofInt address) ++ back ∧
      (patch reference address).run assembly = .ok () { assembly with code } := by
  have hsize : reference.offset + 4 ≤ assembly.code.size := by
    rw [← Array.length_toList, hcode, hoffset, List.length_append, List.length_append]
    omega
  refine ⟨overwrite assembly.code reference.offset (Word.toBytes (.ofInt address)), ?_, ?_⟩
  · rw [hoffset]
    exact toList_overwrite hcode (hlength.trans (Word.length_toBytes _).symm)
  · simp [patch, hsize]

/-- Patching the references of the items that wait turns their bytes into their image. -/
private theorem run_forM_patch (address : String → Int) (waiting : List LoadedItem) {front : List UInt8}
    {assembly : Assembly} (hcode : assembly.code.toList = front ++ (plain waiting).flatMap Item.toBytes) :
    ∃ code : Array UInt8, code.toList = front ++ (plain waiting).flatMap (Item.image address) ∧
      (forM ((LoadedItem.references front.length waiting).map
          fun reference : Reference => (reference, address reference.name))
        fun (reference, target) => patch reference target).run assembly = .ok () { assembly with code } := by
  induction waiting generalizing assembly front with
  | nil => exact ⟨assembly.code, hcode, rfl⟩
  | cons entry waiting ih =>
    have hplain : plain (entry :: waiting) = entry.item :: plain waiting := rfl
    rw [hplain, List.flatMap_cons, ← List.append_assoc] at hcode
    rw [hplain, List.flatMap_cons, ← List.append_assoc, LoadedItem.references]
    cases hreference : entry.item.reference? with
    | none =>
      have hlength : (front ++ entry.item.toBytes).length = front.length + entry.item.size := by simp
      rw [Item.image_of_reference?_eq_none hreference]
      dsimp only
      rw [← hlength]
      exact ih hcode
    | some name =>
      have hlength : (front ++ entry.item.image address).length = front.length + entry.item.size := by simp
      have hitem := Item.eq_reference hreference
      have himage : entry.item.image address = Word.toBytes (.ofInt (address name)) := by rw [hitem, Item.image]
      have hzeros : entry.item.toBytes.length = 4 := by rw [hitem, Item.toBytes]; rfl
      obtain ⟨patched, hpatched, hrun⟩ :=
        run_patch ⟨front.length, name, entry.chunk, entry.line⟩ rfl hzeros hcode (address name)
      rw [← himage] at hpatched
      -- What is patched joins the bytes in front, whose length says where the next reference stands.
      have hnext : { assembly with code := patched }.code.toList =
          front ++ entry.item.image address ++ (plain waiting).flatMap Item.toBytes := hpatched
      obtain ⟨code, hfinal, hruns⟩ := ih hnext
      refine ⟨code, hfinal, ?_⟩
      rw [List.map_cons, List.forM_cons, run_bind_of_ok hrun, ← hlength]
      exact hruns

/-! ### Resolving -/

theorem Reference.error?_eq_none_iff {base : Int} {items : List Item} {reference : Reference} :
    reference.error? base items = none ↔ ∃ offset, Image.offset? reference.name items = some offset ∧
      (offset : Int) ≤ 2147483647 ∧ -2147483648 ≤ base + offset ∧ base + offset ≤ 2147483647 := by
  unfold Reference.error?
  cases Image.offset? reference.name items <;> simp

theorem LoadedItem.map_name_references (offset : Nat) (loaded : List LoadedItem) :
    (references offset loaded).map (fun reference => reference.name) = Image.references (plain loaded) := by
  induction loaded generalizing offset with
  | nil => rfl
  | cons entry loaded ih =>
    have hplain : plain (entry :: loaded) = entry.item :: plain loaded := rfl
    rw [references, hplain, Image.references_cons]
    cases entry.item.reference? with
    | none => exact ih _
    | some name => exact congrArg (name :: ·) (ih _)

/-- Why the items that wait cannot be linked: the first reference that has no address. -/
def LoadedItem.unlinkable? (base : Int) (linked waiting : List LoadedItem) : Option AssemblyError :=
  (references (Image.size (plain linked)) waiting).findSome? (Reference.error? base (plain (linked ++ waiting)))

/-- Items can be linked exactly if each of their references is defined and its address fits in 32 bits. -/
theorem LoadedItem.unlinkable?_eq_none_iff {base : Int} :
    unlinkable? base linked waiting = none ↔ ∀ name ∈ Image.references (plain waiting),
      ∃ offset, Image.offset? name (plain (linked ++ waiting)) = some offset ∧
        (offset : Int) ≤ 2147483647 ∧ -2147483648 ≤ base + offset ∧ base + offset ≤ 2147483647 := by
  rw [unlinkable?, List.findSome?_eq_none_iff, ← map_name_references (Image.size (plain linked)), List.forall_mem_map]
  simp only [Reference.error?_eq_none_iff]

theorem run_resolve_of_halted (h : assembly.halted = true) :
    resolve.run assembly = .error ⟨.halted, none⟩ assembly :=
  run_bind_of_error (run_checkRunning_of_halted h)

private theorem run_resolve (hrunning : assembly.halted = false) :
    resolve.run assembly = (do
      let targets ← MonadExcept.ofExcept assembly.targets
      forM targets fun (reference, address) => patch reference address
      modify fun assembly => { assembly with pending := #[] } : Assembling Unit).run assembly := by
  simp [resolve, checkRunning, hrunning]

/-- Finding the targets of items that cannot be linked fails. -/
theorem targets_of_unlinkable (h : assembly.Holds linked waiting) {error : AssemblyError}
    (herror : LoadedItem.unlinkable? assembly.base linked waiting = some error) : assembly.targets = .error error := by
  rw [LoadedItem.unlinkable?, ← h.pending_eq] at herror
  rw [targets_of_holds h, herror]
  rfl

/-- Once all targets are found, every reference is patched, and the code becomes the image of all items. -/
theorem exists_targets_of_linkable (h : assembly.Holds linked waiting)
    (hnone : LoadedItem.unlinkable? assembly.base linked waiting = none) :
    ∃ (targets : List (Reference × Int)) (code : Array UInt8), assembly.targets = .ok targets ∧
      code.toList = Image.bytes assembly.base (plain (linked ++ waiting)) ∧
      (forM targets fun (reference, address) => patch reference address).run assembly =
        .ok () { assembly with code } := by
  have hlength : ((plain linked).flatMap
      (Item.image (Image.address assembly.base (plain (linked ++ waiting))))).length = Image.size (plain linked) :=
    Image.length_flatMap_image _ _
  obtain ⟨code, hcode, hpatches⟩ :=
    run_forM_patch (Image.address assembly.base (plain (linked ++ waiting))) waiting h.code_eq
  rw [hlength, ← h.pending_eq] at hpatches
  refine ⟨_, code, ?_, ?_, hpatches⟩
  · rw [LoadedItem.unlinkable?, ← h.pending_eq] at hnone
    rw [targets_of_holds h, hnone]
    rfl
  · rw [hcode, Image.bytes, LoadedItem.plain_append, List.flatMap_append]

/-- Nothing changes if the items cannot be linked. -/
theorem run_resolve_of_unlinkable (h : assembly.Holds linked waiting) (hrunning : assembly.halted = false)
    {error : AssemblyError} (herror : LoadedItem.unlinkable? assembly.base linked waiting = some error) :
    resolve.run assembly = .error error assembly := by
  rw [run_resolve hrunning, targets_of_unlinkable h herror]
  rfl

/-- Otherwise the code becomes the image of all items. -/
theorem run_resolve_of_linkable (h : assembly.Holds linked waiting) (hrunning : assembly.halted = false)
    (hnone : LoadedItem.unlinkable? assembly.base linked waiting = none) :
    ∃ code : Array UInt8, code.toList = Image.bytes assembly.base (plain (linked ++ waiting)) ∧
      resolve.run assembly = .ok () { assembly with code, pending := #[] } := by
  obtain ⟨targets, code, htargets, hcode, hpatches⟩ := exists_targets_of_linkable h hnone
  have hfound : (MonadExcept.ofExcept (Except.ok targets) : Assembling _).run assembly = .ok targets assembly := rfl
  refine ⟨code, hcode, ?_⟩
  rw [run_resolve hrunning, htargets, run_bind_of_ok hfound, run_bind_of_ok hpatches]
  rfl

/-- The items that waited are linked then. -/
theorem Assembly.Holds.resolved (h : assembly.Holds linked waiting)
    (hnone : LoadedItem.unlinkable? assembly.base linked waiting = none) {code : Array UInt8}
    (hcode : code.toList = Image.bytes assembly.base (plain (linked ++ waiting))) :
    { assembly with code, pending := #[] }.Holds (linked ++ waiting) [] := by
  constructor
  · rw [List.append_nil]
    exact hcode.trans (List.append_nil _).symm
  · rw [List.append_nil]
    exact h.labels_eq
  · rfl
  · intro name hname
    rw [List.append_nil]
    rw [LoadedItem.plain_append, Image.references_append, List.mem_append] at hname
    rcases hname with hlinked | hwaiting
    · exact h.defined name hlinked
    · obtain ⟨offset, hoffset, -⟩ := LoadedItem.unlinkable?_eq_none_iff.1 hnone name hwaiting
      exact Image.mem_definitions_of_offset?_eq_some hoffset

/-! ### Emitting -/

theorem run_emit_of_unlinkable (h : assembly.Holds linked waiting) (hrunning : assembly.halted = false)
    {error : AssemblyError} (herror : LoadedItem.unlinkable? assembly.base linked waiting = some error) :
    emit.run assembly = .error error assembly :=
  run_bind_of_error (run_resolve_of_unlinkable h hrunning herror)

theorem run_emit_of_linkable (h : assembly.Holds linked waiting) (hrunning : assembly.halted = false)
    (hnone : LoadedItem.unlinkable? assembly.base linked waiting = none) :
    ∃ program : Array UInt8, program.toList = Image.bytes assembly.base (plain (linked ++ waiting)) ∧
      emit.run assembly = .ok program { assembly with code := program, pending := #[] } := by
  obtain ⟨code, hcode, hrun⟩ := run_resolve_of_linkable h hrunning hnone
  exact ⟨code, hcode, run_bind_of_ok hrun⟩

theorem exists_run_emit_iff (h : assembly.Holds linked waiting) (hrunning : assembly.halted = false) :
    (∃ program last, emit.run assembly = .ok program last) ↔
      LoadedItem.unlinkable? assembly.base linked waiting = none := by
  constructor
  · rintro ⟨program, last, hrun⟩
    cases herror : LoadedItem.unlinkable? assembly.base linked waiting with
    | none => rfl
    | some error =>
      rw [run_emit_of_unlinkable h hrunning herror] at hrun
      cases hrun
  · intro hnone
    obtain ⟨program, -, hrun⟩ := run_emit_of_linkable h hrunning hnone
    exact ⟨program, _, hrun⟩

theorem toList_of_run_emit (h : assembly.Holds linked waiting) (hrunning : assembly.halted = false)
    {program : Array UInt8} {last : Assembly} (hrun : emit.run assembly = .ok program last) :
    program.toList = Image.bytes assembly.base (plain (linked ++ waiting)) := by
  have hnone := (exists_run_emit_iff h hrunning).1 ⟨program, last, hrun⟩
  obtain ⟨code, hcode, hemit⟩ := run_emit_of_linkable h hrunning hnone
  rw [hemit] at hrun
  cases hrun
  exact hcode

end RegisterMachine
