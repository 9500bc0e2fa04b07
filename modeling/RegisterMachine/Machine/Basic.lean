import RegisterMachine.Instruction
import RegisterMachine.Memory.Basic

/-!
# Machines

A machine holds a program in memory, a number of registers, and two addresses: of the next instruction and of the
next free byte of the stack.
-/

namespace RegisterMachine

/-- Why a machine cannot be built or an instruction cannot be executed.  Faults of an instruction name the address of
its opcode. -/
inductive Fault where
  | truncatedOperand (op : Opcode) (address : Int)
  | registerOutOfRange (op : Opcode) (address : Int) (register : UInt8) (count : Nat)
  | invalidOpcode (byte : UInt8) (address : Int)
  | stackWrite (register : UInt8) (value : Word) (cause : MemoryError)
  | tooManyRegisters (count : Nat)
  | memory (cause : MemoryError)
  | addressOverflow
deriving DecidableEq, Repr

def Fault.message : Fault → String
  | truncatedOperand op address => s!"{op.mnemonic} at {address}: program ends before all operands were read"
  | registerOutOfRange op address register count =>
    s!"{op.mnemonic} at {address}: register {register} does not exist, the machine has {count}"
  | invalidOpcode byte address => s!"byte {byte} at {address} is not an instruction"
  | stackWrite register value cause => s!"push of register {register} holding {value} failed: {cause.message}"
  | tooManyRegisters count => s!"{count} registers requested, at most 256 are supported"
  | memory cause => cause.message
  | addressOverflow => "instruction pointer left the address space"

structure Machine where
  memory : Memory
  registers : Array Word
  instructionPointer : Int
  /-- The highest address of the stack that holds nothing yet. -/
  stackTop : Int

namespace Machine

/-- A machine that is about to execute the first instruction of a program.  All registers are zero. -/
def build (program : Array UInt8) (config : Config) : Except Fault Machine :=
  if maxRegisterCount < config.registerCount.toNat then .error (.tooManyRegisters config.registerCount.toNat)
  else match Memory.ofProgram program config with
    | .error cause => .error (.memory cause)
    | .ok memory => .ok {
        memory
        registers := Array.replicate config.registerCount.toNat 0
        instructionPointer := memory.layout.instructionsStart
        stackTop := memory.layout.stackBase }

/-- The address of the first byte of the program. -/
def instructionBase (machine : Machine) : Int := machine.memory.layout.instructionsStart

/-- A machine has halted when it has left the program. -/
def isHalted (machine : Machine) : Bool := machine.memory.layout.regionOf machine.instructionPointer != .instructions

/-- The number of program bytes not fetched yet. -/
def remaining (machine : Machine) : Nat :=
  (machine.memory.layout.instructionsEnd - machine.instructionPointer).toNat

end Machine

end RegisterMachine
