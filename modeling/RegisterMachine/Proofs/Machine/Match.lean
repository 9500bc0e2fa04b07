import RegisterMachine.Machine.Basic
import RegisterMachine.Proofs.Machine.Effect
import RegisterMachine.Proofs.Memory.Contents

/-!
# Matches

A machine matches a list of bytes that it has not fetched yet and a store.  This is the whole state of a machine that
only ever executed instructions: where its pointers stand and what its memory holds follow from the two
(`read_instructionPointer`, `isHalted_eq`).  A machine that stands elsewhere in its program, changed registers and a
pushed byte keep the match (`standing`, `withRegisters`, `withPushed`).
-/

namespace RegisterMachine

/-- The machine runs the program in the layout, has the given bytes still to fetch, and holds the store: what was
pushed lies below the base of the stack, and no other byte was written. -/
structure Machine.Matches (machine : Machine) (program : Array UInt8) (layout : Layout) (rest : List UInt8)
    (store : Store) : Prop where
  program_eq : machine.memory.program = program
  layout_eq : machine.memory.layout = layout
  fits : layout.Fits program.size
  suffix : rest <:+ program.toList
  instructionPointer_eq : machine.instructionPointer = layout.instructionsEnd - rest.length
  registers_eq : machine.registers = store.registers
  stackTop_eq : machine.stackTop = layout.stackBase - store.pushed.length
  pushed_le : store.pushed.length ≤ layout.capacity
  heap_eq : machine.memory.heap = {}
  stack_eq : machine.memory.stack = (store.pushed.map some).toArray

/-- What the store of a machine is to an observer: its registers, and the bytes that can be read from the stack and
the heap. -/
structure Machine.Holds (machine : Machine) (store : Store) : Prop where
  registers_eq : machine.registers = store.registers
  stackTop_eq : machine.stackTop = machine.memory.layout.stackBase - store.pushed.length
  read_stack : ∀ address : Int, machine.memory.layout.regionOf address = .stack →
    machine.memory.read address = match store.pushed[(machine.memory.layout.stackBase - address).toNat]? with
      | some byte => .ok byte
      | none => .error (.unmapped address)
  read_heap : ∀ address : Int, machine.memory.layout.regionOf address = .heap →
    machine.memory.read address = .error (.unmapped address)

variable {program : Array UInt8} {layout : Layout} {machine : Machine} {store : Store} {rest : List UInt8}

namespace Machine.Matches

theorem length_rest_le (h : machine.Matches program layout rest store) : rest.length ≤ program.size := by
  simpa using h.suffix.length_le

/-- A machine that has fetched the front of its program stands behind it. -/
theorem instructionPointer_of_drop {count : Nat} (h : machine.Matches program layout (program.toList.drop count) store)
    (hcount : count ≤ program.size) : machine.instructionPointer = layout.instructionsStart + count := by
  have hend := h.fits.instructionsEnd_eq
  rw [h.instructionPointer_eq, List.length_drop, Array.length_toList]
  omega

theorem memory_fits (h : machine.Matches program layout rest store) : machine.memory.Fits := by
  rw [Memory.Fits, h.layout_eq, h.program_eq]
  exact h.fits

/-- The next byte to fetch is the one that the instruction pointer names. -/
theorem read_instructionPointer {byte : UInt8} (h : machine.Matches program layout (byte :: rest) store) :
    machine.memory.read machine.instructionPointer = .ok byte := by
  obtain ⟨front, hfront⟩ := h.suffix
  have hsize : program.size = front.length + (rest.length + 1) := by
    rw [← Array.length_toList, ← hfront, List.length_append, List.length_cons]
  have hend := h.fits.instructionsEnd_eq
  have hpointer := h.instructionPointer_eq
  rw [List.length_cons] at hpointer
  have hindex : (machine.instructionPointer - layout.instructionsStart).toNat = front.length := by omega
  have hbyte : program[front.length]? = some byte := by
    rw [← Array.getElem?_toList, ← hfront, List.getElem?_append_right (Nat.le_refl _), Nat.sub_self,
      List.getElem?_cons_zero]
  obtain ⟨found, hfound, hread⟩ := Memory.read_of_program h.memory_fits machine.instructionPointer
    (show machine.memory.layout.instructionsStart ≤ machine.instructionPointer by rw [h.layout_eq]; omega)
    (show machine.instructionPointer < machine.memory.layout.instructionsEnd by rw [h.layout_eq]; omega)
  rw [h.program_eq, h.layout_eq, hindex, hbyte] at hfound
  cases hfound
  exact hread

theorem isHalted_eq (h : machine.Matches program layout rest store) : machine.isHalted = rest.isEmpty := by
  have hend := h.fits.instructionsEnd_eq
  have hpointer := h.instructionPointer_eq
  have hle := h.length_rest_le
  rw [Machine.isHalted, h.layout_eq]
  cases rest with
  | nil =>
    rw [List.isEmpty_nil, bne_iff_ne, Ne, Layout.regionOf_eq_instructions_iff]
    rw [List.length_nil] at hpointer
    omega
  | cons byte rest =>
    rw [List.isEmpty_cons, bne_eq_false_iff_eq, Layout.regionOf_eq_instructions_iff]
    rw [List.length_cons] at hpointer hle
    omega

/-- A machine holds the store that it matches. -/
theorem holds (h : machine.Matches program layout rest store) : machine.Holds store where
  registers_eq := h.registers_eq
  stackTop_eq := by rw [h.layout_eq, h.stackTop_eq]
  read_stack := by
    intro address hregion
    rw [Memory.read_eq_found h.memory_fits, Memory.contents, hregion, h.layout_eq]
    simp only [h.stack_eq, List.getElem?_toArray, List.getElem?_map]
    cases store.pushed[(layout.stackBase - address).toNat]? <;> rfl
  read_heap := by
    intro address hregion
    rw [Memory.read_eq_found h.memory_fits, Memory.contents, hregion]
    simp only [h.heap_eq, Std.TreeMap.getElem?_emptyc]
    rfl

/-- Below the base of the stack lies what was pushed. -/
theorem read_stack (h : machine.Matches program layout rest store) {depth : Nat} (hdepth : depth < layout.capacity) :
    machine.memory.read (layout.stackBase - depth) =
      Memory.found (layout.stackBase - depth) store.pushed[depth]? := by
  unfold Layout.capacity at hdepth
  have hregion := h.fits.regionOf_eq_stack_iff.2
    (show layout.stackLimit ≤ layout.stackBase - depth ∧ layout.stackBase - depth ≤ layout.stackBase by omega)
  have hindex : (layout.stackBase - (layout.stackBase - (depth : Int))).toNat = depth := by omega
  rw [Memory.read_eq_found h.memory_fits, Memory.contents, h.layout_eq, hregion]
  simp only [hindex, h.stack_eq, List.getElem?_toArray, List.getElem?_map]
  cases store.pushed[depth]? <;> rfl

/-- All that memory holds besides the program is what was pushed, wherever the heap lies and the stack ends. -/
theorem contents_eq (h : machine.Matches program layout rest store) (address : Int) :
    machine.memory.contents address =
      if layout.instructionsStart ≤ address ∧ address < layout.instructionsEnd then
        program[(address - layout.instructionsStart).toNat]?
      else if address ≤ layout.stackBase then store.pushed[(layout.stackBase - address).toNat]?
      else none := by
  have hpushed := h.pushed_le
  have hend := h.fits.instructionsEnd_le
  have hlimit := h.fits.heapStart_le
  unfold Layout.capacity at hpushed
  rw [Memory.contents, h.layout_eq, h.program_eq]
  by_cases hprogram : layout.instructionsStart ≤ address ∧ address < layout.instructionsEnd
  · rw [if_pos hprogram, Layout.regionOf_eq_instructions_iff.2 hprogram]
  · rw [if_neg hprogram]
    by_cases hstack : layout.stackLimit ≤ address ∧ address ≤ layout.stackBase
    · rw [if_pos hstack.2, h.fits.regionOf_eq_stack_iff.2 hstack]
      simp only [h.stack_eq, List.getElem?_toArray, List.getElem?_map]
      cases store.pushed[(layout.stackBase - address).toNat]? <;> rfl
    · -- No byte was pushed as far down as below the stack.
      have hnothing : (if address ≤ layout.stackBase then store.pushed[(layout.stackBase - address).toNat]?
          else none) = none := by
        split
        · exact List.getElem?_eq_none (by omega)
        · rfl
      rw [hnothing]
      cases hregion : layout.regionOf address with
      | instructions => exact absurd (Layout.regionOf_eq_instructions_iff.1 hregion) hprogram
      | stack => exact absurd (h.fits.regionOf_eq_stack_iff.1 hregion) hstack
      | heap => simp only [h.heap_eq, Std.TreeMap.getElem?_emptyc]
      | unmapped => rfl

/-- A machine matches what is left of its program wherever it stands. -/
theorem standing (h : machine.Matches program layout rest store) {bytes : List UInt8}
    (hbytes : bytes <:+ program.toList) :
    { machine with
      instructionPointer := layout.instructionsEnd - bytes.length }.Matches program layout bytes store where
  program_eq := h.program_eq
  layout_eq := h.layout_eq
  fits := h.fits
  suffix := hbytes
  instructionPointer_eq := rfl
  registers_eq := h.registers_eq
  stackTop_eq := h.stackTop_eq
  pushed_le := h.pushed_le
  heap_eq := h.heap_eq
  stack_eq := h.stack_eq

/-- Where the machine stands is the only thing that a fetch changes. -/
theorem fetched {byte : UInt8} (h : machine.Matches program layout (byte :: rest) store) :
    { machine with instructionPointer := machine.instructionPointer + 1 }.Matches program layout rest store := by
  have hnext : machine.instructionPointer + 1 = layout.instructionsEnd - rest.length := by
    rw [h.instructionPointer_eq, List.length_cons]
    omega
  rw [hnext]
  exact h.standing ((List.suffix_cons byte rest).trans h.suffix)

/-- A change of the registers is a change of the registers of the store. -/
theorem withRegisters (h : machine.Matches program layout rest store) (registers : Array Word) :
    { machine with registers }.Matches program layout rest { store with registers } where
  program_eq := h.program_eq
  layout_eq := h.layout_eq
  fits := h.fits
  suffix := h.suffix
  instructionPointer_eq := h.instructionPointer_eq
  registers_eq := rfl
  stackTop_eq := h.stackTop_eq
  pushed_le := h.pushed_le
  heap_eq := h.heap_eq
  stack_eq := h.stack_eq

/-- A byte written to the top of the stack goes behind what was pushed before. -/
theorem withPushed (h : machine.Matches program layout rest store) (byte : UInt8)
    (hroom : store.pushed.length < layout.capacity) :
    { machine with
      memory := machine.memory.put store.pushed.length byte
      stackTop := machine.stackTop - 1 }.Matches program layout rest
        { store with pushed := store.pushed ++ [byte] } where
  program_eq := h.program_eq
  layout_eq := h.layout_eq
  fits := h.fits
  suffix := h.suffix
  instructionPointer_eq := h.instructionPointer_eq
  registers_eq := h.registers_eq
  stackTop_eq := by
    show machine.stackTop - 1 = layout.stackBase - (store.pushed ++ [byte]).length
    rw [h.stackTop_eq, List.length_append, List.length_singleton]
    omega
  pushed_le := by
    rw [List.length_append, List.length_singleton]
    exact hroom
  heap_eq := h.heap_eq
  stack_eq := by
    have hsize : store.pushed.length = machine.memory.stack.size := by
      rw [h.stack_eq, List.size_toArray, List.length_map]
    show (machine.memory.put store.pushed.length byte).stack = _
    rw [hsize, Memory.stack_put_size, h.stack_eq, List.push_toArray, List.map_append]
    rfl

end Machine.Matches

end RegisterMachine
