import RegisterMachine.Proofs.Machine.Invariant
import RegisterMachine.Proofs.Wire.Taking
import RegisterMachine.Wire.Format

/-!
# Round trips on the wire

Configurations and snapshots are taken back from the bytes they are written as (`Config.takes_take`,
`Snapshot.takes_take`).  What a decoder takes shows where it ends, so no two values are written alike and none is
written as the start of another one (`Wire.eq_of_takes`).
-/

namespace RegisterMachine

open Wire

/-- Values that a decoder takes are told apart by their bytes, also where one of them is followed by others. -/
theorem Wire.eq_of_takes {α : Type} {take : Decoder α} {used more : List UInt8} {value other : α}
    (h : Takes take used value) (hother : Takes take more other) (hstart : used <+: more) : value = other := by
  obtain ⟨rest, rfl⟩ := hstart
  have hrun := hother.run_append []
  rw [List.append_nil, h.run_append] at hrun
  cases hrun
  rfl

namespace Config

theorem takes_take (config : Config) : Takes take config.encode config := by
  unfold take encode
  simp only [List.append_assoc]
  exact (takes_takeUInt64 _).bind ((takes_takeUInt32 _).bind ((takes_takeUInt32 _).bind ((takes_takeUInt32 _).bind
    ((takes_takeUInt32 _).bind_pure _))))

end Config

theorem StackSample.takes_take (sample : StackSample) : Takes take sample.encode sample := by
  unfold take encode
  rw [List.append_assoc]
  exact (takes_takeInt32 _).bind ((takes_takeInt32 _).bind ((takes_takeByte _).bind_pure _))

/-- A machine keeps the number of registers that it was built with. -/
private theorem length_registers_snapshot {program : Array UInt8} {config : Config} {machine : Machine}
    (h : Machine.build program config = .ok machine) (calls : List Call) :
    (machine.afterCalls calls).snapshot.registers.length < 18446744073709551616 := by
  obtain ⟨rest, store, hnow, -, hstore⟩ :=
    (Machine.matches_of_build h).exists_of_steps (Machine.steps_afterCalls machine calls)
  have hsize : (machine.afterCalls calls).registers.size = config.registerCount.toNat := by
    rw [hnow.registers_eq, hstore.size_registers, Store.initial, Array.size_replicate]
  rw [Machine.snapshot, Array.length_toList, hsize]
  exact config.registerCount.toNat_lt

namespace Snapshot

/-- The number of registers has to be one of 64 bits; that of samples always is. -/
theorem takes_take {snapshot : Snapshot} (h : snapshot.registers.length < 18446744073709551616) :
    Takes take snapshot.encode snapshot := by
  have hsamples := takes_takeList (fun sample _ => sample.takes_take)
    (Nat.lt_of_le_of_lt snapshot.length_samples_le (by decide : 20 < 18446744073709551616))
  have hregisters := takes_takeList (fun register _ => takes_takeInt32 register) h
  unfold take encode
  simp only [List.append_assoc]
  refine (takes_takeInt32 _).bind ((takes_takeInt32 _).bind ((takes_takeInt32 _).bind (hregisters.bind
    (hsamples.bind_of_nil ?_))))
  -- A snapshot has no more samples than the decoder accepts.
  rw [dif_pos snapshot.length_samples_le]
  exact .pure snapshot

end Snapshot

/-- Decoding gives back every configuration and every snapshot that was encoded, whatever bytes follow, and refuses an
encoding that lacks bytes at its end.  So encodings are as different as the values, and none is the start of another
one.  What a machine shows of itself can always be decoded, whatever was asked of it before. -/
theorem decode?_encode_append :
    (∀ (config : Config) rest, Config.decode? (config.encode ++ rest) = some config) ∧
    (∀ (config : Config) front missing, config.encode = front ++ missing → missing ≠ [] →
      Config.decode? front = none) ∧
    (∀ config other : Config, config.encode <+: other.encode → config = other) ∧
    (∀ (snapshot : Snapshot) rest, snapshot.registers.length < 18446744073709551616 →
      Snapshot.decode? (snapshot.encode ++ rest) = some snapshot) ∧
    (∀ (snapshot : Snapshot) front missing, snapshot.registers.length < 18446744073709551616 →
      snapshot.encode = front ++ missing → missing ≠ [] → Snapshot.decode? front = none) ∧
    (∀ snapshot other : Snapshot, snapshot.registers.length < 18446744073709551616 →
      other.registers.length < 18446744073709551616 → snapshot.encode <+: other.encode → snapshot = other) ∧
    (∀ program config machine, Machine.build program config = .ok machine → ∀ calls rest,
      Snapshot.decode? ((machine.afterCalls calls).snapshot.encode ++ rest) =
        some (machine.afterCalls calls).snapshot) := by
  have hconfig (config : Config) rest : Config.decode? (config.encode ++ rest) = some config := by
    rw [Config.decode?, config.takes_take.run_append, Option.map_some]
  have hsnapshot (snapshot : Snapshot) rest (h : snapshot.registers.length < 18446744073709551616) :
      Snapshot.decode? (snapshot.encode ++ rest) = some snapshot := by
    rw [Snapshot.decode?, (Snapshot.takes_take h).run_append, Option.map_some]
  refine ⟨hconfig, ?_, ?_, hsnapshot, ?_, ?_, ?_⟩
  · intro config front missing hsplit hne
    rw [Config.decode?, config.takes_take.run_of_cut hsplit hne, Option.map_none]
  · intro config other
    exact eq_of_takes config.takes_take other.takes_take
  · intro snapshot front missing h hsplit hne
    rw [Snapshot.decode?, (Snapshot.takes_take h).run_of_cut hsplit hne, Option.map_none]
  · intro snapshot other h hother
    exact eq_of_takes (Snapshot.takes_take h) (Snapshot.takes_take hother)
  · intro program config machine hbuild calls rest
    exact hsnapshot _ rest (length_registers_snapshot hbuild calls)

/-- A machine that faulted in the middle of a push shows all of its stack.  Without the last byte its snapshot cannot
be decoded, nor can the default configuration. -/
theorem decode?_encode_append_of_fault :
    let front : List UInt8 := [144, 16, 254, 239, 255, 255, 15, 248, 239, 255, 255, 15, 1, 3, 3, 6, 254, 239, 255, 255,
      15, 254, 4, 252, 239, 255, 255, 15, 255, 2, 250, 239, 255, 255, 15]
    ∃ machine, Machine.build #[1, 0, 254, 255, 255, 255, 8, 0] { registerCount := 1, stackSize := 2 } = .ok machine ∧
      let snapshot := (machine.afterCalls [.run]).snapshot
      snapshot.registers.length < 18446744073709551616 ∧ snapshot.encode = front ++ [255] ∧
      Snapshot.decode? (snapshot.encode ++ [7]) = some snapshot ∧ Snapshot.decode? front = none ∧
      ({} : Config).encode = [8, 128, 128, 64, 0, 100] ++ [0] ∧ Config.decode? [8, 128, 128, 64, 0, 100] = none := by
  intro front
  obtain ⟨machine, hbuild⟩ : ∃ machine, Machine.build #[1, 0, 254, 255, 255, 255, 8, 0]
      { registerCount := 1, stackSize := 2 } = .ok machine := ⟨_, rfl⟩
  have hlength := length_registers_snapshot hbuild [.run]
  have hsplit : (machine.afterCalls [.run]).snapshot.encode = front ++ [255] := by
    cases hbuild
    decide +kernel
  have hsplitConfig : ({} : Config).encode = [8, 128, 128, 64, 0, 100] ++ [0] := by decide +kernel
  obtain ⟨-, hconfig, -, -, hsnapshot, -, hmachine⟩ := decode?_encode_append
  exact ⟨machine, hbuild, hlength, hsplit, hmachine _ _ machine hbuild [.run] [7],
    hsnapshot _ _ _ hlength hsplit (List.cons_ne_nil _ _), hsplitConfig,
    hconfig _ _ _ hsplitConfig (List.cons_ne_nil _ _)⟩

end RegisterMachine
