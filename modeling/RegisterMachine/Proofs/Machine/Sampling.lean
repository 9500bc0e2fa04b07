import RegisterMachine.Proofs.Machine.Match
import RegisterMachine.Snapshot

/-!
# Sampling

What a snapshot shows of the stack: a byte for every offset from the top of the stack behind which one was pushed
(`Machine.Matches.sample?_eq`).
-/

namespace RegisterMachine.Machine.Matches

variable {program : Array UInt8} {layout : Layout} {machine : Machine} {store : Store} {rest : List UInt8}

/-- Counted from the top of the stack, the last byte pushed has the offset 1. -/
theorem sample?_eq (h : machine.Matches program layout rest store) (offset : Int) :
    machine.sample? offset =
      if offset ≤ store.pushed.length then
        store.pushed[(store.pushed.length - offset).toNat]?.map fun value =>
          { offset := .ofInt offset, address := .ofInt (machine.stackTop + offset), value }
      else none := by
  have htop := h.stackTop_eq
  have hle := h.pushed_le
  obtain ⟨hlowest, hend, hheap, hlimit, hbase, hhighest⟩ := h.fits.bounds
  unfold Layout.capacity at hle
  unfold sample?
  by_cases hstack : layout.stackLimit ≤ machine.stackTop + offset ∧ machine.stackTop + offset ≤ layout.stackBase
  · have haddress : address? (machine.stackTop + offset) = some (machine.stackTop + offset) := by
      rw [address?_eq_some_iff]
      omega
    have hroom : (store.pushed.length - offset).toNat < layout.capacity := by
      unfold Layout.capacity
      omega
    have hread := h.read_stack hroom
    rw [show layout.stackBase - ((store.pushed.length - offset).toNat : Nat) = machine.stackTop + offset by omega]
      at hread
    rw [haddress, if_pos (show offset ≤ store.pushed.length by omega)]
    dsimp only
    rw [h.layout_eq, h.fits.regionOf_eq_stack_iff.2 hstack, if_pos rfl, hread]
    cases store.pushed[(store.pushed.length - offset).toNat]? <;> rfl
  · have houtside : layout.regionOf (machine.stackTop + offset) ≠ .stack := by
      rw [Ne, h.fits.regionOf_eq_stack_iff]
      exact hstack
    -- An address below the stack is too far from the top for a byte that was pushed.
    have hnothing : (if offset ≤ store.pushed.length then
        store.pushed[(store.pushed.length - offset).toNat]?.map fun value =>
          ({ offset := .ofInt offset, address := .ofInt (machine.stackTop + offset), value } : StackSample)
        else none) = none := by
      split
      · rw [List.getElem?_eq_none (by omega)]
        rfl
      · rfl
    rw [hnothing]
    split
    · rfl
    · rename_i haddress
      rw [address?_eq_some_iff] at haddress
      rw [← haddress.1, h.layout_eq, if_neg houtside]

/-- All addresses in a snapshot are those of the machine. -/
theorem toInt_snapshot (h : machine.Matches program layout rest store) :
    machine.snapshot.instructionPointer.toInt = machine.instructionPointer ∧
      machine.snapshot.stackBase.toInt = layout.stackBase ∧ machine.snapshot.stackTop.toInt = machine.stackTop := by
  have hpointer := h.instructionPointer_eq
  have htop := h.stackTop_eq
  have hle := h.pushed_le
  have hrest := h.length_rest_le
  obtain ⟨hlowest, hend, hheap, hlimit, hbase, hhighest⟩ := h.fits.bounds
  unfold Layout.capacity at hle
  unfold snapshot
  rw [h.layout_eq]
  refine ⟨Int32.toInt_ofInt_of_le ?_ ?_, Int32.toInt_ofInt_of_le ?_ ?_, Int32.toInt_ofInt_of_le ?_ ?_⟩ <;> omega

/-- The address of a sample is that of its byte. -/
theorem map_sample? (h : machine.Matches program layout rest store) (offset : Int) :
    (machine.sample? offset).map (fun sample => (sample.offset, sample.address.toInt, sample.value)) =
      if offset ≤ store.pushed.length then
        store.pushed[(store.pushed.length - offset).toNat]?.map fun value =>
          (.ofInt offset, machine.stackTop + offset, value)
      else none := by
  have htop := h.stackTop_eq
  have hle := h.pushed_le
  obtain ⟨hlowest, hend, hheap, hlimit, hbase, hhighest⟩ := h.fits.bounds
  unfold Layout.capacity at hle
  rw [h.sample?_eq]
  split
  · cases hbyte : store.pushed[(store.pushed.length - offset).toNat]? with
    | none => rfl
    | some value =>
      obtain ⟨hlt, -⟩ := List.getElem?_eq_some_iff.1 hbyte
      have haddress : (Int32.ofInt (machine.stackTop + offset)).toInt = machine.stackTop + offset := by
        apply Int32.toInt_ofInt_of_le <;> omega
      simp only [Option.map_some, haddress]
  · rfl

end RegisterMachine.Machine.Matches
