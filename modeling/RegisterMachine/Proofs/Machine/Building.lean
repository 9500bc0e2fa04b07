import RegisterMachine.Proofs.Machine.Refinement
import RegisterMachine.Proofs.Memory.Regions

/-!
# Building

Which machines can be built, and where their memory then lies.  A machine is refused for two reasons only, of which the
number of registers is looked at first (`Machine.build_eq_error_iff`).  A layout that is accepted has the bounds that
unbounded integers give, and its regions share no address (`placement_of_config`).
-/

namespace RegisterMachine

namespace Machine

variable {program : Array UInt8} {config : Config}

theorem exists_build_iff :
    (∃ machine, build program config = .ok machine) ↔
      config.registerCount.toNat ≤ maxRegisterCount ∧
        Layout.lowestInstruction + Layout.extent program.size config ≤ Layout.highestStack := by
  rw [← Layout.exists_ofConfig_iff]
  constructor
  · rintro ⟨machine, h⟩
    obtain ⟨hcount, layout, hlayout, -⟩ := build_eq_ok_iff.1 h
    exact ⟨hcount, layout, hlayout⟩
  · rintro ⟨hcount, layout, hlayout⟩
    exact ⟨_, build_eq_ok_iff.2 ⟨hcount, layout, hlayout, rfl⟩⟩

/-- Too many registers are reported even if memory cannot be laid out either. -/
theorem build_eq_error_iff {fault : Fault} :
    build program config = .error fault ↔
      (maxRegisterCount < config.registerCount.toNat ∧ fault = .tooManyRegisters config.registerCount.toNat) ∨
      (config.registerCount.toNat ≤ maxRegisterCount ∧
        Layout.highestStack < Layout.lowestInstruction + Layout.extent program.size config ∧
          fault = .memory .layout) := by
  unfold build Memory.ofProgram
  by_cases hcount : maxRegisterCount < config.registerCount.toNat
  · simp [hcount, Nat.not_le_of_lt hcount, eq_comm]
  · cases hlayout : Layout.ofConfig program.size config with
    | error cause =>
      obtain ⟨hlt, rfl⟩ := Layout.ofConfig_eq_error_iff.1 hlayout
      simp [hcount, Nat.le_of_not_lt hcount, hlt, Except.map, eq_comm]
    | ok layout =>
      have hle := Layout.exists_ofConfig_iff.1 ⟨layout, hlayout⟩
      simp [hcount, Int.not_lt.2 hle, Except.map]

end Machine

/-- Memory is laid out exactly if the program, the gap, the stack and the two offsets fit between the lowest instruction
and the highest stack address, and no other error is reported if they do not.  The bounds are then those that unbounded
integers give, they lie in order, and every address belongs to one region: none is in two, so the order in which the
regions are tested does not matter.  A machine is built exactly if besides there are at most 256 registers, and this is
what is looked at first. -/
theorem placement_of_config (length : Nat) (config : Config) :
    let extent := 1024 + config.instructionOffset.toNat + length + config.heapGap.toNat + config.stackSize.toNat +
      config.stackOffset.toNat
    ((∃ layout, Layout.ofConfig length config = .ok layout) ↔ extent ≤ 2147482623) ∧
    (∀ cause, Layout.ofConfig length config = .error cause → cause = .layout) ∧
    (∀ layout, Layout.ofConfig length config = .ok layout →
      layout = {
        instructionsStart := 1024 + config.instructionOffset.toNat
        instructionsEnd := 1024 + config.instructionOffset.toNat + length
        heapStart := 1024 + config.instructionOffset.toNat + length + config.heapGap.toNat
        stackBase := 2147482623 - config.stackOffset.toNat
        stackLimit := 2147482623 - config.stackOffset.toNat - config.stackSize.toNat } ∧
      (layout.instructionsStart ≤ layout.instructionsEnd ∧ layout.instructionsEnd ≤ layout.heapStart ∧
        layout.heapStart ≤ layout.stackLimit ∧ layout.stackLimit ≤ layout.stackBase) ∧
      (∀ address region, layout.regionOf address = region ↔ address ∈ layout.addresses region) ∧
      (Pairwise fun first second => layout.addresses first ∩ layout.addresses second = ∅) ∧
      ∀ order : List Region, .instructions ∈ order → .heap ∈ order → .stack ∈ order →
        ∀ address, layout.regionIn order address = layout.regionOf address) ∧
    ∀ program : Array UInt8, program.size = length →
      ((∃ machine, Machine.build program config = .ok machine) ↔
        config.registerCount.toNat ≤ 256 ∧ extent ≤ 2147482623) ∧
      (256 < config.registerCount.toNat →
        Machine.build program config = .error (.tooManyRegisters config.registerCount.toNat)) ∧
      (config.registerCount.toNat ≤ 256 → 2147482623 < extent →
        Machine.build program config = .error (.memory .layout)) := by
  intro extent
  have hextent : Layout.lowestInstruction + Layout.extent length config ≤ Layout.highestStack ↔
      extent ≤ 2147482623 := by
    simp only [Layout.lowestInstruction, Layout.extent, Layout.highestStack, extent]
    omega
  refine ⟨?_, ?_, ?_, ?_⟩
  · rw [Layout.exists_ofConfig_iff, hextent]
  · intro cause h
    exact (Layout.ofConfig_eq_error_iff.1 h).2
  · intro layout h
    have hfits := Layout.fits_of_ofConfig h
    obtain ⟨hlowest, hend, hheap, hlimit, hbase, hhighest⟩ := hfits.bounds
    refine ⟨(Layout.ofConfig_eq_ok_iff.1 h).2, ⟨by omega, hheap, hlimit, hbase⟩, ?_, hfits.pairwise_disjoint, ?_⟩
    · intro address region
      exact hfits.mem_addresses_iff.symm
    · intro order hinstructions hheap hstack address
      exact hfits.regionIn_eq_regionOf hinstructions hheap hstack address
  · rintro program rfl
    refine ⟨?_, ?_, ?_⟩
    · rw [Machine.exists_build_iff, hextent]
      rfl
    · intro hcount
      exact Machine.build_eq_error_iff.2 (Or.inl ⟨hcount, rfl⟩)
    · intro hcount hlt
      refine Machine.build_eq_error_iff.2 (Or.inr ⟨hcount, ?_, rfl⟩)
      rw [← Int.not_le, hextent]
      omega

/-- Three bytes and the stack take all there is, and no address is left for the heap.  A fourth byte does not fit, which
is not reported if there are too many registers. -/
theorem placement_of_config_without_heap :
    let config : Config := { registerCount := 257, heapGap := 0, stackSize := 2147481596 }
    let layout : Layout := ⟨1024, 1027, 1027, 2147482623, 1027⟩
    Layout.ofConfig 3 config = .ok layout ∧ layout.regionOf 1027 = .stack ∧ (1027 : Int) ∉ layout.addresses .heap ∧
      layout.regionIn [.heap, .stack, .instructions] 1026 = .instructions ∧
      Layout.ofConfig 4 config = .error .layout ∧
      Machine.build #[0, 0, 0, 0] config = .error (.tooManyRegisters 257) ∧
      Machine.build #[0, 0, 0, 0] { config with registerCount := 256 } = .error (.memory .layout) := by
  intro config layout
  have hlayout : Layout.ofConfig 3 config = .ok layout := by decide
  obtain ⟨-, -, hplaced, -⟩ := placement_of_config 3 config
  obtain ⟨-, -, hregion, hdisjoint, horder⟩ := hplaced layout hlayout
  obtain ⟨hfour, herror, -, hbuild⟩ := placement_of_config 4 config
  obtain ⟨-, -, -, hbuild'⟩ := placement_of_config 4 { config with registerCount := 256 }
  have hstack : layout.regionOf 1027 = .stack := by decide
  refine ⟨hlayout, hstack, ?_, ?_, ?_, ?_, ?_⟩
  · intro hheap
    have hempty := hdisjoint (show Region.heap ≠ .stack by decide)
    exact Set.eq_empty_iff_forall_notMem.1 hempty 1027 ⟨hheap, (hregion 1027 .stack).1 hstack⟩
  · rw [horder _ (by decide) (by decide) (by decide)]
    decide
  · cases hfailed : Layout.ofConfig 4 config with
    | error cause => rw [herror cause hfailed]
    | ok other => exact absurd (hfour.1 ⟨other, hfailed⟩) (by decide)
  · exact (hbuild #[0, 0, 0, 0] rfl).2.1 (by decide)
  · exact (hbuild' #[0, 0, 0, 0] rfl).2.2 (by decide) (by decide)

end RegisterMachine
