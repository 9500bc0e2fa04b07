import RegisterMachine.Proofs.Memory.Placement

/-!
# Contents

Memory is a partial map from addresses to bytes, whatever keeps the bytes: the program, the heap, or the stack with its
holes.  Reading looks an address up in this map (`Memory.read_eq_found`).  A byte put on the stack or into the heap
changes the map at one address (`Memory.contents_put`, `Memory.contents_insert`).
-/

namespace RegisterMachine.Memory

variable {memory next : Memory} {address : Int} {byte : UInt8}

/-- The regions hold the program and do not overlap. -/
def Fits (memory : Memory) : Prop := memory.layout.Fits memory.program.size

theorem Fits.of_eq (h : memory.Fits) (hlayout : next.layout = memory.layout)
    (hprogram : next.program = memory.program) : next.Fits := by
  rw [Fits, hlayout, hprogram]
  exact h

theorem fits_of_ofProgram {program : Array UInt8} {config : Config} (h : ofProgram program config = .ok memory) :
    memory.Fits ∧ memory.program = program ∧ memory.heap = {} ∧ memory.stack = #[] := by
  unfold ofProgram at h
  cases hlayout : Layout.ofConfig program.size config with
  | error cause =>
    rw [hlayout] at h
    cases h
  | ok layout =>
    rw [hlayout] at h
    cases h
    exact ⟨Layout.fits_of_ofConfig hlayout, rfl, rfl, rfl⟩

/-! ### Reading -/

/-- The byte that memory holds at an address. -/
def contents (memory : Memory) (address : Int) : Option UInt8 :=
  match memory.layout.regionOf address with
  | .instructions => memory.program[(address - memory.layout.instructionsStart).toNat]?
  | .heap => memory.heap[address]?
  | .stack => memory.stack[(memory.layout.stackBase - address).toNat]?.join
  | .unmapped => none

/-- No address of a region is too far from its bound. -/
theorem read_eq_found (h : memory.Fits) (address : Int) :
    memory.read address = found address (memory.contents address) := by
  obtain ⟨hlowest, hend, hheap, hlimit, hbase, hhighest⟩ := Layout.Fits.bounds h
  unfold read contents
  cases hregion : memory.layout.regionOf address with
  | instructions =>
    rw [Layout.regionOf_eq_instructions_iff] at hregion
    simp only [distance_eq_ok hregion.1 (by omega)]
    rfl
  | heap => rfl
  | stack =>
    rw [Layout.Fits.regionOf_eq_stack_iff h] at hregion
    simp only [distance_eq_ok hregion.2 (by omega)]
    rfl
  | unmapped => rfl

theorem found_ne_layout (address : Int) (byte? : Option UInt8) : found address byte? ≠ .error .layout := by
  cases byte? <;> exact nofun

/-- Every address of the program holds its byte. -/
theorem contents_of_program (h : memory.Fits) (address : Int) (hlow : memory.layout.instructionsStart ≤ address)
    (hhigh : address < memory.layout.instructionsEnd) :
    ∃ byte, memory.program[(address - memory.layout.instructionsStart).toNat]? = some byte ∧
      memory.contents address = some byte := by
  have hend := h.instructionsEnd_eq
  have hindex : (address - memory.layout.instructionsStart).toNat < memory.program.size := by omega
  have hcontents : memory.contents address =
      memory.program[(address - memory.layout.instructionsStart).toNat]? := by
    rw [contents, Layout.regionOf_eq_instructions_iff.2 ⟨hlow, hhigh⟩]
  rw [hcontents, Array.getElem?_eq_getElem hindex]
  exact ⟨_, rfl, rfl⟩

theorem read_of_program (h : memory.Fits) (address : Int) (hlow : memory.layout.instructionsStart ≤ address)
    (hhigh : address < memory.layout.instructionsEnd) :
    ∃ byte, memory.program[(address - memory.layout.instructionsStart).toNat]? = some byte ∧
      memory.read address = .ok byte := by
  obtain ⟨byte, hbyte, hcontents⟩ := contents_of_program h address hlow hhigh
  refine ⟨byte, hbyte, ?_⟩
  rw [read_eq_found h, hcontents]
  rfl

/-! ### Writing -/

/-- Holes are nothing to read. -/
theorem join_getElem?_deepen (stack : Array (Option UInt8)) (size index : Nat) :
    (deepen stack size)[index]?.join = stack[index]?.join := by
  rw [deepen, Array.getElem?_append]
  split
  · rfl
  · rw [Array.getElem?_replicate, Array.getElem?_eq_none (by omega)]
    split <;> rfl

/-- A byte put behind those on the stack leaves no hole. -/
theorem stack_put_size (memory : Memory) (byte : UInt8) :
    (memory.put memory.stack.size byte).stack = memory.stack.push (some byte) := by
  have hone : memory.stack.size + 1 - memory.stack.size = 1 := by omega
  rw [put, deepen, hone]
  apply Array.ext'
  simp

theorem join_getElem?_put (memory : Memory) (depth : Nat) (byte : UInt8) (index : Nat) :
    (memory.put depth byte).stack[index]?.join = if index = depth then some byte else memory.stack[index]?.join := by
  rw [put, Array.getElem?_setIfInBounds]
  split
  · rename_i h
    rw [size_deepen, if_pos h.symm, if_pos (by omega)]
    rfl
  · rename_i h
    rw [if_neg (Ne.symm h), join_getElem?_deepen]

/-- A byte put on the stack is what its address holds from then on. -/
theorem contents_put (h : memory.Fits) (hlow : memory.layout.stackLimit ≤ address)
    (hhigh : address ≤ memory.layout.stackBase) (byte : UInt8) (other : Int) :
    (memory.put (memory.layout.stackBase - address).toNat byte).contents other =
      if other = address then some byte else memory.contents other := by
  have haddress := (Layout.Fits.regionOf_eq_stack_iff h).2 ⟨hlow, hhigh⟩
  have hlayout : (memory.put (memory.layout.stackBase - address).toNat byte).layout = memory.layout := rfl
  unfold contents
  rw [hlayout]
  cases hregion : memory.layout.regionOf other with
  | stack =>
    have hother := ((Layout.Fits.regionOf_eq_stack_iff h).1 hregion).2
    simp only [join_getElem?_put]
    by_cases heq : other = address
    · rw [if_pos heq, if_pos (by omega)]
    · rw [if_neg heq, if_neg (by omega)]
  | _ =>
    have hne : other ≠ address := by
      rintro rfl
      rw [haddress] at hregion
      cases hregion
    exact (if_neg hne).symm

/-- A byte written to the heap is what its address holds from then on. -/
theorem contents_insert (haddress : memory.layout.regionOf address = .heap) (byte : UInt8) (other : Int) :
    { memory with heap := memory.heap.insert address byte }.contents other =
      if other = address then some byte else memory.contents other := by
  unfold contents
  cases hregion : memory.layout.regionOf other with
  | heap =>
    simp only [Std.TreeMap.getElem?_insert, Std.compare_eq_iff_eq, eq_comm (a := other)]
  | _ =>
    have hne : other ≠ address := by
      rintro rfl
      rw [haddress] at hregion
      cases hregion
    exact (if_neg hne).symm

end RegisterMachine.Memory
