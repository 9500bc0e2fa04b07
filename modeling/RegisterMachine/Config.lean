/-!
# Configurations

The sizes and offsets a machine is built with.  The offsets move the program, the heap and the stack away from their
usual places, so that a program cannot depend on fixed addresses.
-/

namespace RegisterMachine

structure Config where
  registerCount : UInt64 := 8
  stackSize : UInt32 := 1048576
  /-- How far the program is moved up. -/
  instructionOffset : UInt32 := 0
  /-- The number of unmapped bytes between the program and the heap. -/
  heapGap : UInt32 := 100
  /-- How far the stack is moved down. -/
  stackOffset : UInt32 := 0
deriving DecidableEq, Repr

/-- A register operand is one byte, so it cannot name more registers. -/
def maxRegisterCount : Nat := 256

end RegisterMachine
