import RegisterMachine.Memory.Basic

/-!
# Placement

When the regions of memory fit into the address space, and where they then lie.  Every bound is computed without
overflow exactly if the sizes and offsets together fit between the lowest instruction and the highest stack address
(`place?_eq_some_iff`, `exists_ofConfig_iff`), so a layout that fits a program also fits every shorter one.
-/

namespace RegisterMachine.Layout

/-- How many bytes the program, the gap, the stack and the two offsets take together. -/
def extent (length : Nat) (config : Config) : Nat :=
  config.instructionOffset.toNat + length + config.heapGap.toNat + config.stackSize.toNat + config.stackOffset.toNat

/-- The regions as they lie if nothing overflows. -/
def placed (length : Nat) (config : Config) : Layout where
  instructionsStart := lowestInstruction + config.instructionOffset.toNat
  instructionsEnd := lowestInstruction + config.instructionOffset.toNat + length
  heapStart := lowestInstruction + config.instructionOffset.toNat + length + config.heapGap.toNat
  stackBase := highestStack - config.stackOffset.toNat
  stackLimit := highestStack - config.stackOffset.toNat - config.stackSize.toNat

theorem place?_eq_some_iff {length : Nat} {config : Config} {layout : Layout} :
    place? length config = some layout ↔
      lowestInstruction + extent length config ≤ highestStack ∧ layout = placed length config := by
  unfold lowestInstruction highestStack extent
  simp only [place?, lowestInstruction, highestStack, Option.bind_eq_bind, Option.bind_eq_some_iff,
    address?_eq_some_iff]
  constructor
  · rintro ⟨_, ⟨rfl, -⟩, _, ⟨rfl, -⟩, _, ⟨rfl, -⟩, _, ⟨rfl, -⟩, _, ⟨rfl, -⟩, _, ⟨rfl, -⟩, _, ⟨rfl, -⟩, _, ⟨rfl, -⟩,
      _, ⟨rfl, -⟩, _, ⟨rfl, -⟩, h⟩
    split at h
    · refine ⟨by omega, ?_⟩
      rw [← Option.some.inj h]
      simp only [placed, lowestInstruction, highestStack]
    · cases h
  · rintro ⟨h, rfl⟩
    -- Every intermediate bound lies between the lowest instruction and the highest stack address.
    have bounded {n : Int} (hn : -2147483648 ≤ n ∧ n ≤ 2147483647) :
        n = n ∧ -2147483648 ≤ n ∧ n ≤ 2147483647 := ⟨rfl, hn⟩
    refine ⟨_, bounded (by omega), _, bounded (by omega), _, bounded (by omega), _, bounded (by omega),
      _, bounded (by omega), _, bounded (by omega), _, bounded (by omega), _, bounded (by omega),
      _, bounded (by omega), _, bounded (by omega), ?_⟩
    rw [if_pos (by omega)]
    simp only [placed, lowestInstruction, highestStack]

theorem ofConfig_eq_ok_iff {length : Nat} {config : Config} {layout : Layout} :
    ofConfig length config = .ok layout ↔
      lowestInstruction + extent length config ≤ highestStack ∧ layout = placed length config := by
  rw [← place?_eq_some_iff]
  unfold ofConfig
  split
  · rename_i h
    simp [h]
  · rename_i h
    simp [h]

theorem exists_ofConfig_iff {length : Nat} {config : Config} :
    (∃ layout, ofConfig length config = .ok layout) ↔ lowestInstruction + extent length config ≤ highestStack := by
  constructor
  · rintro ⟨layout, h⟩
    exact (ofConfig_eq_ok_iff.1 h).1
  · intro h
    exact ⟨_, ofConfig_eq_ok_iff.2 ⟨h, rfl⟩⟩

/-- There is one error for all sizes and offsets that do not fit. -/
theorem ofConfig_eq_error_iff {length : Nat} {config : Config} {cause : MemoryError} :
    ofConfig length config = .error cause ↔
      highestStack < lowestInstruction + extent length config ∧ cause = .layout := by
  have hok : (∃ layout, ofConfig length config = .ok layout) ↔ _ := exists_ofConfig_iff
  unfold ofConfig at hok ⊢
  cases hplace : place? length config with
  | some layout =>
    have hle := hok.1 ⟨layout, by rw [hplace]⟩
    constructor
    · rintro ⟨⟩
    · intro h
      omega
  | none =>
    have hlt : ¬lowestInstruction + extent length config ≤ highestStack := by
      rw [← hok, hplace]
      rintro ⟨layout, ⟨⟩⟩
    constructor
    · rintro ⟨⟩
      exact ⟨by omega, rfl⟩
    · rintro ⟨-, rfl⟩
      rfl

/-- A layout for a program leaves room for every shorter one, which then starts at the same address. -/
theorem ofConfig_of_le {length shorter : Nat} {config : Config} {layout : Layout} (hle : shorter ≤ length)
    (h : ofConfig length config = .ok layout) :
    ∃ other, ofConfig shorter config = .ok other ∧ other.instructionsStart = layout.instructionsStart := by
  obtain ⟨hextent, rfl⟩ := ofConfig_eq_ok_iff.1 h
  refine ⟨placed shorter config, ofConfig_eq_ok_iff.2 ⟨?_, rfl⟩, rfl⟩
  unfold extent at hextent ⊢
  omega

/-- The bounds of the regions of a program with the given length lie in order, between the lowest instruction and the
highest stack address. -/
structure Fits (layout : Layout) (length : Nat) : Prop where
  lowest_le : lowestInstruction ≤ layout.instructionsStart
  instructionsEnd_eq : layout.instructionsEnd = layout.instructionsStart + length
  instructionsEnd_le : layout.instructionsEnd ≤ layout.heapStart
  heapStart_le : layout.heapStart ≤ layout.stackLimit
  stackLimit_le : layout.stackLimit ≤ layout.stackBase
  stackBase_le : layout.stackBase ≤ highestStack

theorem fits_of_ofConfig {length : Nat} {config : Config} {layout : Layout}
    (h : ofConfig length config = .ok layout) : layout.Fits length := by
  obtain ⟨hle, rfl⟩ := ofConfig_eq_ok_iff.1 h
  unfold extent at hle
  constructor <;> simp only [placed] <;> omega

/-- The bounds in their order, between the two addresses as numbers. -/
theorem Fits.bounds {layout : Layout} {length : Nat} (h : layout.Fits length) :
    1024 ≤ layout.instructionsStart ∧ layout.instructionsEnd = layout.instructionsStart + length ∧
      layout.instructionsEnd ≤ layout.heapStart ∧ layout.heapStart ≤ layout.stackLimit ∧
      layout.stackLimit ≤ layout.stackBase ∧ layout.stackBase ≤ 2147482623 :=
  ⟨h.lowest_le, h.instructionsEnd_eq, h.instructionsEnd_le, h.heapStart_le, h.stackLimit_le, h.stackBase_le⟩

/-- The whole program lies between the lowest instruction and the highest stack address. -/
theorem Fits.program_bounds {layout : Layout} {length : Nat} (h : layout.Fits length) :
    1024 ≤ layout.instructionsStart ∧ layout.instructionsStart + length ≤ 2147482623 := by
  obtain ⟨hlowest, hend, hheap, hlimit, hbase, hhighest⟩ := h.bounds
  omega

theorem Fits.regionOf_eq_stack_iff {layout : Layout} {length : Nat} {address : Int} (h : layout.Fits length) :
    layout.regionOf address = .stack ↔ layout.stackLimit ≤ address ∧ address ≤ layout.stackBase := by
  have hend := h.instructionsEnd_le
  have hheap := h.heapStart_le
  unfold regionOf
  split
  · exact iff_of_false nofun (by omega)
  · split
    · exact iff_of_true rfl ‹_›
    · split <;> exact iff_of_false nofun ‹_›

theorem Fits.regionOf_eq_heap_iff {layout : Layout} {length : Nat} {address : Int} (h : layout.Fits length) :
    layout.regionOf address = .heap ↔ layout.heapStart ≤ address ∧ address < layout.stackLimit := by
  have hend := h.instructionsEnd_le
  unfold regionOf
  split
  · exact iff_of_false nofun (by omega)
  · split
    · exact iff_of_false nofun (by omega)
    · split
      · exact iff_of_true rfl ‹_›
      · exact iff_of_false nofun ‹_›

/-- The number of bytes that the stack can hold. -/
def capacity (layout : Layout) : Nat := (layout.stackBase - layout.stackLimit + 1).toNat

/-- The stack holds one byte more than its size says, since both its bounds belong to it. -/
theorem capacity_placed (length : Nat) (config : Config) :
    (placed length config).capacity = config.stackSize.toNat + 1 := by
  simp only [capacity, placed]
  omega

end RegisterMachine.Layout
