import RegisterMachine.Machine.Basic

/-!
# Snapshots

What a debugger is shown of a machine: the registers, both pointers, and the bytes of the stack near its top.
-/

namespace RegisterMachine

/-- A byte of the stack and where it is, counted from the top of the stack and from address zero. -/
structure StackSample where
  offset : Int32
  address : Int32
  value : UInt8
deriving DecidableEq, Repr

/-- The offsets that a snapshot looks at, from the highest down. -/
def sampleOffsets : List Int := (List.range 20).map fun (i : Nat) => 8 - (i : Int)

structure Snapshot where
  instructionPointer : Int32
  stackBase : Int32
  stackTop : Int32
  registers : List Word
  samples : List StackSample
  length_samples_le : samples.length ≤ 20
deriving DecidableEq, Repr

namespace Machine

/-- The byte of the stack at an offset from its top, if it was written. -/
def sample? (machine : Machine) (offset : Int) : Option StackSample :=
  match address? (machine.stackTop + offset) with
  | none => none
  | some address =>
    if machine.memory.layout.regionOf address = .stack then
      match machine.memory.read address with
      | .ok value => some { offset := .ofInt offset, address := .ofInt address, value }
      | .error _ => none
    else none

def snapshot (machine : Machine) : Snapshot where
  instructionPointer := .ofInt machine.instructionPointer
  stackBase := .ofInt machine.memory.layout.stackBase
  stackTop := .ofInt machine.stackTop
  registers := machine.registers.toList
  samples := sampleOffsets.filterMap machine.sample?
  length_samples_le := List.length_filterMap_le _ sampleOffsets

end Machine

end RegisterMachine
