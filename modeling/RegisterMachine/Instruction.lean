import RegisterMachine.Opcode
import RegisterMachine.Word

/-!
# Instructions

An opcode together with its operands, which is what the machine executes.
-/

namespace RegisterMachine

/-- The instructions of the machine.  Registers are numbered from 0; where two are named, the first receives. -/
inductive Instruction where
  | noop
  | setReg (dest : UInt8) (value : Word)
  | copyReg (dest source : UInt8)
  | xor (dest source : UInt8)
  | push (source : UInt8)
deriving DecidableEq, Repr

namespace Instruction

def opcode : Instruction → Opcode
  | noop => .noop
  | setReg .. => .setReg
  | copyReg .. => .copyReg
  | xor .. => .xor
  | push .. => .push

/-- The operand bytes of the instruction in a program. -/
def operands : Instruction → List UInt8
  | noop => []
  | setReg dest value => dest :: value.toBytes
  | copyReg dest source => [dest, source]
  | xor dest source => [dest, source]
  | push source => [source]

/-- The instruction as it stands in a program. -/
def toBytes (instruction : Instruction) : List UInt8 := instruction.opcode.toByte :: instruction.operands

theorem length_operands (instruction : Instruction) :
    instruction.operands.length = instruction.opcode.operandLength := by
  cases instruction <;> simp [operands, opcode, Opcode.operandLength]

end Instruction

end RegisterMachine
