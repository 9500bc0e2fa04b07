import Mathlib.Data.List.Basic
import RegisterMachine.Proofs.Machine.Pushes
import RegisterMachine.Proofs.Machine.Sampling

/-!
# Windows

A snapshot looks at twenty addresses around the top of the stack.  Those at the top and below it hold nothing, and
those above it hold what was pushed, so what it shows are the bytes pushed last, without a gap and never more than
eight (`Machine.Matches.samples_eq`).  This is the case after any calls, also after a push that did not find room for
its whole value (`Machine.snapshot_afterCalls`).
-/

namespace RegisterMachine

/-- What a filter keeps of a range, if it keeps a part without gaps. -/
private theorem filterMap_range {α : Type} {f : Nat → Option α} {g : Nat → α} {front count back : Nat}
    (hfront : ∀ i < front, f i = none) (hkept : ∀ i < count, f (front + i) = some (g i))
    (hback : ∀ i < back, f (front + count + i) = none) :
    (List.range (front + count + back)).filterMap f = (List.range count).map g := by
  have hfirst : (List.range front).filterMap f = [] :=
    List.filterMap_eq_nil_iff.2 fun i hi => hfront i (List.mem_range.1 hi)
  have hlast : ((List.range back).map (front + count + ·)).filterMap f = [] := by
    rw [List.filterMap_eq_nil_iff, List.forall_mem_map]
    exact fun i hi => hback i (List.mem_range.1 hi)
  have hmiddle : ((List.range count).map (front + ·)).filterMap f = (List.range count).map g := by
    rw [List.filterMap_map, List.filterMap_eq_map_iff_forall_eq_some]
    exact fun i hi => hkept i (List.mem_range.1 hi)
  rw [List.range_add, List.range_add, List.filterMap_append, List.filterMap_append, hfirst, hmiddle, hlast,
    List.nil_append, List.append_nil]

/-- The sample of a byte that was pushed, by its offset from the top of the stack. -/
def Machine.topSample (machine : Machine) (pushed : List UInt8) (offset : Nat) : StackSample where
  offset := .ofInt offset
  address := .ofInt (machine.stackTop + offset)
  value := pushed.getD (pushed.length - offset) 0

namespace Machine.Matches

variable {program : Array UInt8} {layout : Layout} {machine : Machine} {store : Store} {rest : List UInt8}

/-- Every byte that was pushed has a sample. -/
theorem sample?_of_le (h : machine.Matches program layout rest store) {offset : Nat} (hpos : 0 < offset)
    (hle : offset ≤ store.pushed.length) : machine.sample? offset = some (machine.topSample store.pushed offset) := by
  have hindex : ((store.pushed.length : Int) - offset).toNat = store.pushed.length - offset := by omega
  have hlt : store.pushed.length - offset < store.pushed.length := by omega
  rw [h.sample?_eq, if_pos (by omega), hindex, topSample, List.getD_eq_getElem?_getD, List.getElem?_eq_getElem hlt]
  rfl

/-- No other byte has one. -/
theorem sample?_eq_none (h : machine.Matches program layout rest store) {offset : Int}
    (hoffset : offset ≤ 0 ∨ store.pushed.length < offset) : machine.sample? offset = none := by
  rw [h.sample?_eq]
  split
  · rw [List.getElem?_eq_none (by omega)]
    rfl
  · rfl

/-- The sample of a byte that was pushed tells where the byte is and what it is. -/
theorem read_topSample (h : machine.Matches program layout rest store) {offset : Nat} (hpos : 0 < offset)
    (hle : offset ≤ store.pushed.length) :
    let sample := machine.topSample store.pushed offset
    sample.offset.toInt = offset ∧ sample.address.toInt = machine.stackTop + offset ∧
      layout.stackLimit ≤ sample.address.toInt ∧ sample.address.toInt ≤ layout.stackBase ∧
      machine.memory.read sample.address.toInt = .ok sample.value := by
  intro sample
  have htop := h.stackTop_eq
  have hpushed := h.pushed_le
  obtain ⟨hlowest, hend, hheap, hlimit, hbase, hhighest⟩ := h.fits.bounds
  have hcapacity : layout.capacity = (layout.stackBase - layout.stackLimit + 1).toNat := rfl
  have haddress : sample.address.toInt = machine.stackTop + offset := by
    apply Int32.toInt_ofInt_of_le <;> omega
  have hdepth : machine.stackTop + offset = layout.stackBase - (store.pushed.length - offset : Nat) := by omega
  have hlt : store.pushed.length - offset < store.pushed.length := by omega
  refine ⟨?_, haddress, by omega, by omega, ?_⟩
  · apply Int32.toInt_ofInt_of_le <;> omega
  · rw [haddress, hdepth, h.read_stack (by omega)]
    show _ = Except.ok (store.pushed.getD _ _)
    rw [List.getD_eq_getElem?_getD, List.getElem?_eq_getElem hlt]
    rfl

/-- The samples are those of the bytes pushed last, at most eight, from the first of them to the last. -/
theorem samples_eq (h : machine.Matches program layout rest store) :
    machine.snapshot.samples =
      (List.range (min 8 store.pushed.length)).map fun i =>
        machine.topSample store.pushed (min 8 store.pushed.length - i) := by
  have hrange : 20 = 8 - min 8 store.pushed.length + min 8 store.pushed.length + 12 := by omega
  have hsamples : machine.snapshot.samples =
      (List.range 20).filterMap (machine.sample? ∘ fun (i : Nat) => 8 - (i : Int)) := List.filterMap_map
  rw [hsamples, hrange]
  apply filterMap_range
  · -- So high above its top the stack has ended.
    intro i hi
    rw [Function.comp_apply]
    exact h.sample?_eq_none (by omega)
  · intro i hi
    have hoffset : 8 - ((8 - min 8 store.pushed.length + i : Nat) : Int) = (min 8 store.pushed.length - i : Nat) := by
      omega
    rw [Function.comp_apply, hoffset]
    exact h.sample?_of_le (by omega) (by omega)
  · -- The top of the stack and what is below it hold nothing.
    intro i hi
    rw [Function.comp_apply]
    exact h.sample?_eq_none (by omega)

/-- The values of the samples are the last bytes that were pushed. -/
theorem map_value_samples (h : machine.Matches program layout rest store) :
    machine.snapshot.samples.map (fun sample => sample.value) =
      store.pushed.drop (store.pushed.length - min 8 store.pushed.length) := by
  rw [h.samples_eq, List.map_map]
  apply List.ext_getElem
  · simp only [List.length_map, List.length_range, List.length_drop]
    omega
  · intro i hi hdrop
    rw [List.length_map, List.length_range] at hi
    rw [List.getElem_map, List.getElem_range, List.getElem_drop, Function.comp_apply]
    show store.pushed.getD _ _ = _
    rw [List.getD_eq_getElem?_getD, List.getElem?_eq_getElem (by omega), Option.getD_some]
    congr 1
    omega

end Machine.Matches

/-! ### Room for samples -/

/-- A sample is kept if there is room for it, and dropped otherwise. -/
def StackSample.keep (room : Nat) (kept : List StackSample) : Option StackSample → List StackSample
  | none => kept
  | some sample => if kept.length < room then kept ++ [sample] else kept

/-- None is dropped if there is room for as many samples as there are offsets. -/
theorem StackSample.foldl_keep {room : Nat} {kept : List StackSample} {sample? : Int → Option StackSample}
    {offsets : List Int} (h : kept.length + offsets.length ≤ room) :
    offsets.foldl (fun kept offset => keep room kept (sample? offset)) kept = kept ++ offsets.filterMap sample? := by
  induction offsets generalizing kept with
  | nil => exact (List.append_nil _).symm
  | cons offset offsets ih =>
    rw [List.length_cons] at h
    rw [List.foldl_cons, List.filterMap_cons]
    cases sample? offset with
    | none => exact ih (by rw [keep]; omega)
    | some sample =>
      have hroom : kept.length < room := by omega
      rw [keep, if_pos hroom, ih (by rw [List.length_append, List.length_singleton]; omega), List.append_assoc]
      rfl

/-- A snapshot shows exactly the top of the stack, whatever was asked of the machine and however often it faulted.  It
has a sample for each of the bytes pushed last, at most eight, from the highest address down to the one above the top
of the stack.  No sample lies outside the stack, each has the byte that is read at its address, and none is dropped for
want of room.  The pointers and the registers are those of the machine. -/
theorem Machine.snapshot_afterCalls {program : Array UInt8} {config : Config} {machine : Machine}
    (h : Machine.build program config = .ok machine) (calls : List Call) :
    let now := machine.afterCalls calls
    let layout := now.memory.layout
    let pushed := ((machine.pushes (machine.stepsOfCalls calls)).flatMap Word.toBytes).take
      (config.stackSize.toNat + 1)
    let count := min 8 (layout.stackBase - now.stackTop).toNat
    let shown := now.snapshot
    shown.samples.map (fun sample => sample.offset.toInt) = (List.range count).map (fun (i : Nat) => (count : Int) - i) ∧
    (∀ sample ∈ shown.samples, sample.address.toInt = now.stackTop + sample.offset.toInt ∧
      layout.stackLimit ≤ sample.address.toInt ∧ sample.address.toInt ≤ layout.stackBase ∧
      now.memory.read sample.address.toInt = .ok sample.value) ∧
    shown.samples.map (fun sample => sample.value) = pushed.drop (pushed.length - count) ∧
    sampleOffsets.foldl (fun kept offset => StackSample.keep 20 kept (now.sample? offset)) [] = shown.samples ∧
    shown.instructionPointer.toInt = now.instructionPointer ∧ shown.stackBase.toInt = layout.stackBase ∧
    shown.stackTop.toInt = now.stackTop ∧ shown.registers = now.registers.toList := by
  intro now layout pushed count shown
  obtain ⟨left, grown, hnow, hpushed⟩ := (Machine.matches_of_build h).exists_pushed_afterSteps
    (machine.stepsOfCalls calls)
  rw [← Machine.afterCalls_eq_afterSteps] at hnow
  rw [Store.initial, List.nil_append, Machine.capacity_of_build h] at hpushed
  have hlayout : layout = machine.memory.layout := hnow.layout_eq
  have hcount : count = min 8 grown.pushed.length := by
    have htop : now.stackTop = machine.memory.layout.stackBase - grown.pushed.length := hnow.stackTop_eq
    have hdepth : (layout.stackBase - now.stackTop).toNat = grown.pushed.length := by
      rw [htop, hlayout]
      omega
    exact congrArg (min 8) hdepth
  have hread (i : Nat) (hi : i < count) := hnow.read_topSample (show 0 < count - i by omega) (by omega)
  obtain ⟨hpointer, hbase, htop⟩ := hnow.toInt_snapshot
  refine ⟨?_, ?_, ?_, StackSample.foldl_keep (Nat.le_refl 20), hpointer, ?_, htop, rfl⟩
  · rw [hnow.samples_eq, ← hcount, List.map_map]
    apply List.map_congr_left
    intro i hi
    have hlt := List.mem_range.1 hi
    rw [Function.comp_apply, (hread i hlt).1]
    omega
  · rw [hnow.samples_eq, ← hcount, List.forall_mem_map]
    intro i hi
    obtain ⟨hoffset, haddress, hbounds⟩ := hread i (List.mem_range.1 hi)
    rw [hoffset, hlayout]
    exact ⟨haddress, hbounds⟩
  · rw [hnow.map_value_samples, hcount, hpushed]
  · rw [hbase, hlayout]

/-- A stack of ten bytes has room for two and a half of three pushes, and the snapshot shows the last eight bytes. -/
theorem Machine.snapshot_afterCalls_full_stack :
    ∃ machine, Machine.build #[1, 0, 1, 2, 3, 4, 8, 0, 8, 0, 8, 9, 8, 0] { stackSize := 9 } = .ok machine ∧
      let now := machine.afterCalls [.runFor 9, .step, .runFor 2]
      now.stackTop = 2147482613 ∧
      now.snapshot.samples.map (fun sample => sample.offset.toInt) = [8, 7, 6, 5, 4, 3, 2, 1] ∧
      now.snapshot.samples.map (fun sample => sample.value) = [3, 4, 1, 2, 3, 4, 1, 2] := by
  obtain ⟨machine, h⟩ : ∃ machine,
      Machine.build #[1, 0, 1, 2, 3, 4, 8, 0, 8, 0, 8, 9, 8, 0] { stackSize := 9 } = .ok machine := ⟨_, rfl⟩
  have hpushes :
      machine.pushes (machine.stepsOfCalls [.runFor 9, .step, .runFor 2]) = [67305985, 67305985, 67305985] := by
    cases h
    decide +kernel
  have htop : (machine.afterCalls [.runFor 9, .step, .runFor 2]).stackTop = 2147482613 := by
    cases h
    decide +kernel
  have hbase : (machine.afterCalls [.runFor 9, .step, .runFor 2]).memory.layout.stackBase = 2147482623 := by
    cases h
    decide +kernel
  obtain ⟨hoffsets, -, hvalues, -⟩ := Machine.snapshot_afterCalls h [.runFor 9, .step, .runFor 2]
  rw [hbase, htop] at hoffsets hvalues
  rw [hpushes] at hvalues
  exact ⟨machine, h, htop, hoffsets, hvalues⟩

end RegisterMachine
