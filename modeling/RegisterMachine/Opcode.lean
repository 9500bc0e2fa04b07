import RegisterMachine.Text.CharClass

/-!
# Opcodes

The table that the assembler and the machine share: each opcode has a byte that stands for it in a program, a
mnemonic that stands for it in source text, and a fixed number of operand bytes.
-/

namespace RegisterMachine

/-- The operations of the machine. -/
inductive Opcode where
  | noop
  | setReg
  | copyReg
  | xor
  | push
deriving DecidableEq, Repr

namespace Opcode

/-- All opcodes, in the order of their bytes. -/
def all : List Opcode := [noop, setReg, copyReg, xor, push]

/-- The byte that stands for the opcode in a program. -/
def toByte : Opcode → UInt8
  | noop => 0
  | setReg => 1
  | copyReg => 2
  | xor => 3
  | push => 8

/-- The name of the opcode in source text. -/
def mnemonic : Opcode → String
  | noop => "noop"
  | setReg => "setreg"
  | copyReg => "copyreg"
  | xor => "xor"
  | push => "push"

/-- The number of operand bytes after the opcode's own byte: a register is one byte, a word four. -/
def operandLength : Opcode → Nat
  | noop => 0
  | setReg => 5
  | copyReg => 2
  | xor => 2
  | push => 1

def ofByte? (byte : UInt8) : Option Opcode := all.find? (·.toByte == byte)

/-- The opcode with the given mnemonic, in letters of either case. -/
def ofMnemonic? (text : String) : Option Opcode := all.find? fun op => sameLetters op.mnemonic text

@[simp] theorem ofByte?_toByte (op : Opcode) : ofByte? op.toByte = some op := by cases op <;> decide

theorem toByte_of_ofByte? {byte : UInt8} {op : Opcode} (h : ofByte? byte = some op) : op.toByte = byte := by
  simpa using List.find?_some h

@[simp] theorem ofMnemonic?_mnemonic (op : Opcode) : ofMnemonic? op.mnemonic = some op := by cases op <;> decide

example : ofMnemonic? "SetReg" = some setReg := by decide

end Opcode

end RegisterMachine
