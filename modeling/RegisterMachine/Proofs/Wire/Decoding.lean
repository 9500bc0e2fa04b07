import RegisterMachine.Proofs.Wire.Fields
import RegisterMachine.Proofs.Wire.RoundTrip

/-!
# Decoding what was not encoded

Any bytes may be offered for decoding, not only those that were written.  What is accepted as a configuration or a
snapshot spells its fields (`Config.readsAs_take`, `Snapshot.readsAs_take`), so it differs from what is written for the
value only in numbers that are longer than they have to be (`Wire.consumed_of_readsAs`).
-/

namespace RegisterMachine

open Wire

/-! ### Bytes that were accepted -/

namespace Wire

variable {α : Type}

/-- The bytes that were decoded as the value, and no others. -/
structure Consumed (decode? : List UInt8 → Option α) (encode : α → List UInt8) (fields : α → List Field) (value : α)
    (used : List UInt8) : Prop where
  /-- Whatever follows, the value is the same. -/
  decode?_append (more : List UInt8) : decode? (used ++ more) = some value
  /-- None of the bytes can be missing. -/
  decode?_of_cut (front missing : List UInt8) (hsplit : used = front ++ missing) (hne : missing ≠ []) :
    decode? front = none
  decode?_encode_append (more : List UInt8) : decode? (encode value ++ more) = some value
  length_encode_le : (encode value).length ≤ used.length
  /-- The bytes spell the fields of the value, and are what is written for it exactly if no spelling is too long. -/
  exists_spelling : ∃ pieces, Spelling (fields value) pieces ∧ used = pieces.flatten ∧
    (encode value = used ↔ ∀ piece ∈ pieces, Shortest piece)

theorem consumed_of_readsAs {take : Decoder α} {encode : α → List UInt8} {fields : α → List Field} {value : α}
    {bytes rest : List UInt8} (h : ReadsAs take bytes value (fields value) rest)
    (hencode : encode value = (fields value).flatMap Field.encode) (htakes : Takes take (encode value) value) :
    ∃ used, bytes = used ++ rest ∧
      Consumed (fun bytes => (take.run bytes).map Prod.fst) encode fields value used := by
  obtain ⟨pieces, hpieces, hsplit, hused⟩ := h
  refine ⟨pieces.flatten, hsplit, ?_, ?_, ?_, ?_, pieces, hpieces, rfl, ?_⟩
  · intro more
    rw [hused.run_append, Option.map_some]
  · intro front missing hcut hne
    rw [hused.run_of_cut hcut hne, Option.map_none]
  · intro more
    rw [htakes.run_append, Option.map_some]
  · rw [hencode]
    exact length_flatMap_encode_le hpieces
  · rw [hencode]
    exact flatMap_encode_eq_iff hpieces

end Wire

/-! ### Configurations -/

namespace Config

def fields (config : Config) : List Field :=
  [.long config.registerCount.toNat, .short config.stackSize.toNat, .short config.instructionOffset.toNat,
    .short config.heapGap.toNat, .short config.stackOffset.toNat]

theorem encode_eq (config : Config) : config.encode = config.fields.flatMap Field.encode := by
  simp only [encode, fields, List.flatMap_cons, List.flatMap_nil, Field.encode, List.append_nil, List.append_assoc]

theorem readsAs_take {bytes rest : List UInt8} {config : Config} (h : take.run bytes = some (config, rest)) :
    ReadsAs take bytes config config.fields rest := by
  obtain ⟨registerCount, _, hregisterCount, h⟩ := exists_of_run_bind h
  obtain ⟨stackSize, _, hstackSize, h⟩ := exists_of_run_bind h
  obtain ⟨instructionOffset, _, hinstructionOffset, h⟩ := exists_of_run_bind h
  obtain ⟨heapGap, _, hheapGap, h⟩ := exists_of_run_bind h
  obtain ⟨stackOffset, _, hstackOffset, h⟩ := exists_of_run_bind h
  cases h
  exact (readsAs_takeUInt64 hregisterCount).bind ((readsAs_takeUInt32 hstackSize).bind
    ((readsAs_takeUInt32 hinstructionOffset).bind ((readsAs_takeUInt32 hheapGap).bind
      ((readsAs_takeUInt32 hstackOffset).bind_pure _))))

end Config

/-! ### Snapshots -/

namespace StackSample

def fields (sample : StackSample) : List Field :=
  [.short (zigzag sample.offset.toInt), .short (zigzag sample.address.toInt), .byte sample.value]

theorem encode_eq (sample : StackSample) : sample.encode = sample.fields.flatMap Field.encode := by
  simp only [encode, encodeInt32, fields, List.flatMap_cons, List.flatMap_nil, Field.encode, List.append_nil,
    List.append_assoc]

theorem readsAs_take {bytes rest : List UInt8} {sample : StackSample} (h : take.run bytes = some (sample, rest)) :
    ReadsAs take bytes sample sample.fields rest := by
  obtain ⟨offset, _, hoffset, h⟩ := exists_of_run_bind h
  obtain ⟨address, _, haddress, h⟩ := exists_of_run_bind h
  obtain ⟨value, _, hvalue, h⟩ := exists_of_run_bind h
  cases h
  exact (readsAs_takeInt32 hoffset).bind ((readsAs_takeInt32 haddress).bind ((readsAs_takeByte hvalue).bind_pure _))

end StackSample

namespace Snapshot

def fields (snapshot : Snapshot) : List Field :=
  .short (zigzag snapshot.instructionPointer.toInt) :: .short (zigzag snapshot.stackBase.toInt) ::
    .short (zigzag snapshot.stackTop.toInt) ::
      (listFields (fun register => [.short (zigzag register.toInt)]) snapshot.registers ++
        listFields StackSample.fields snapshot.samples)

theorem encode_eq (snapshot : Snapshot) : snapshot.encode = snapshot.fields.flatMap Field.encode := by
  have hregister (register : Word) :
      encodeInt32 register = [Field.short (zigzag register.toInt)].flatMap Field.encode := by
    rw [List.flatMap_singleton]
    rfl
  simp only [encode, fields, encodeList_eq hregister, encodeList_eq StackSample.encode_eq, encodeInt32,
    List.flatMap_append, List.flatMap_cons, Field.encode, List.append_assoc]

theorem readsAs_take {bytes rest : List UInt8} {snapshot : Snapshot} (h : take.run bytes = some (snapshot, rest)) :
    ReadsAs take bytes snapshot snapshot.fields rest := by
  obtain ⟨instructionPointer, _, hinstructionPointer, h⟩ := exists_of_run_bind h
  obtain ⟨stackBase, _, hstackBase, h⟩ := exists_of_run_bind h
  obtain ⟨stackTop, _, hstackTop, h⟩ := exists_of_run_bind h
  obtain ⟨registers, _, hregisters, h⟩ := exists_of_run_bind h
  obtain ⟨samples, _, hsamples, h⟩ := exists_of_run_bind h
  by_cases hlength : samples.length ≤ 20
  · rw [dif_pos hlength] at h
    cases h
    refine (readsAs_takeInt32 hinstructionPointer).bind ((readsAs_takeInt32 hstackBase).bind
      ((readsAs_takeInt32 hstackTop).bind ((readsAs_takeList (fun _ _ _ => readsAs_takeInt32) hregisters).bind
        ((readsAs_takeList (fun _ _ _ => StackSample.readsAs_take) hsamples).bind_of_nil ?_))))
    rw [dif_pos hlength]
    exact .pure _ _
  · rw [dif_neg hlength] at h
    cases h

/-- The number of registers was read as one of 64 bits. -/
theorem length_registers_of_run {bytes rest : List UInt8} {snapshot : Snapshot}
    (h : take.run bytes = some (snapshot, rest)) : snapshot.registers.length < 18446744073709551616 := by
  have hmem : Field.long snapshot.registers.length ∈ snapshot.fields := by simp [fields, listFields]
  obtain ⟨pieces, hpieces, -⟩ := readsAs_take h
  obtain ⟨piece, -, -, -, hlt⟩ := exists_spelled_of_mem hpieces hmem
  exact hlt

end Snapshot

/-! ### Bytes that may be anything -/

/-- Whatever bytes are decoded as a configuration or a snapshot, some at their front were used.  These decide the
value alone: nothing that follows matters, and without the last of them there is none.  They spell the fields of the
value in their order, in numbers of at most five or ten groups and within their 32 or 64 bits, so that nothing was cut
off.  What is written for the value is decoded as the value again and is no longer; it is the same bytes exactly if each
number was spelled in the shortest way. -/
theorem consumed_of_decode? :
    (∀ bytes config, Config.decode? bytes = some config → ∃ used rest, bytes = used ++ rest ∧
      Config.take.run bytes = some (config, rest) ∧
      Consumed Config.decode? Config.encode Config.fields config used) ∧
    (∀ bytes snapshot, Snapshot.decode? bytes = some snapshot → ∃ used rest, bytes = used ++ rest ∧
      Snapshot.take.run bytes = some (snapshot, rest) ∧
      Consumed Snapshot.decode? Snapshot.encode Snapshot.fields snapshot used ∧
      snapshot.samples.length ≤ 20 ∧ snapshot.registers.length < 18446744073709551616) := by
  constructor
  · intro bytes config h
    obtain ⟨⟨_, rest⟩, hrun, rfl⟩ := Option.map_eq_some_iff.1 h
    obtain ⟨used, hsplit, hused⟩ :=
      consumed_of_readsAs (Config.readsAs_take hrun) (Config.encode_eq _) (Config.takes_take _)
    exact ⟨used, rest, hsplit, hrun, hused⟩
  · intro bytes snapshot h
    obtain ⟨⟨_, rest⟩, hrun, rfl⟩ := Option.map_eq_some_iff.1 h
    have hlength := Snapshot.length_registers_of_run hrun
    obtain ⟨used, hsplit, hused⟩ :=
      consumed_of_readsAs (Snapshot.readsAs_take hrun) (Snapshot.encode_eq _) (Snapshot.takes_take hlength)
    exact ⟨used, rest, hsplit, hrun, hused, Snapshot.length_samples_le _, hlength⟩

/-- Numbers with groups of zeros at their ends, and the least and the greatest integer. -/
theorem consumed_of_decode?_overlong :
    let used : List UInt8 := [255, 255, 255, 255, 15, 254, 255, 255, 255, 15, 128, 128, 128, 128, 0, 129, 0, 1, 1, 3, 0,
      255]
    let snapshot : Snapshot := ⟨-2147483648, 2147483647, 0, [-1], [⟨-2, 0, 255⟩], by decide⟩
    Config.decode? ([136, 0, 1, 2, 3, 4] ++ [7]) = some ⟨8, 1, 2, 3, 4⟩ ∧
    Consumed Config.decode? Config.encode Config.fields ⟨8, 1, 2, 3, 4⟩ [136, 0, 1, 2, 3, 4] ∧
    (⟨8, 1, 2, 3, 4⟩ : Config).encode = [8, 1, 2, 3, 4] ∧
    Snapshot.decode? (used ++ [9]) = some snapshot ∧
    Consumed Snapshot.decode? Snapshot.encode Snapshot.fields snapshot used ∧
    snapshot.encode = [255, 255, 255, 255, 15, 254, 255, 255, 255, 15, 0, 1, 1, 1, 3, 0, 255] := by
  intro used snapshot
  have hconfig : Config.take.run ([136, 0, 1, 2, 3, 4] ++ [7]) = some (⟨8, 1, 2, 3, 4⟩, [7]) := by decide +kernel
  have hsnapshot : Snapshot.take.run (used ++ [9]) = some (snapshot, [9]) := by decide +kernel
  have hdecodeConfig : Config.decode? ([136, 0, 1, 2, 3, 4] ++ [7]) = some ⟨8, 1, 2, 3, 4⟩ :=
    congrArg (Option.map Prod.fst) hconfig
  have hdecodeSnapshot : Snapshot.decode? (used ++ [9]) = some snapshot := congrArg (Option.map Prod.fst) hsnapshot
  refine ⟨hdecodeConfig, ?_, by decide +kernel, hdecodeSnapshot, ?_, by decide +kernel⟩
  · obtain ⟨front, rest, hsplit, hrun, hfront⟩ := consumed_of_decode?.1 _ _ hdecodeConfig
    cases hconfig.symm.trans hrun
    rwa [List.append_cancel_right hsplit]
  · obtain ⟨front, rest, hsplit, hrun, hfront, -⟩ := consumed_of_decode?.2 _ _ hdecodeSnapshot
    cases hsnapshot.symm.trans hrun
    rwa [List.append_cancel_right hsplit]

end RegisterMachine
