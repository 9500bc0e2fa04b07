import RegisterMachine.Machine.Basic

/-!
# Execution

One step of a machine: fetch an instruction, then execute it.  A fault leaves the machine as it was at that point;
the bytes fetched so far stay behind the instruction pointer.
-/

namespace RegisterMachine

/-- An action of a machine.  What it did before a fault stays done. -/
abbrev Execution := EStateM Fault Machine

/-- What a step did. -/
inductive Step where
  | executed
  | halted
deriving DecidableEq, Repr

namespace Execution

/-- The next byte of the program, or nothing if the machine has halted. -/
def fetch : Execution (Option UInt8) := do
  let machine ← get
  if machine.isHalted then return none
  let byte ← MonadExcept.ofExcept ((machine.memory.read machine.instructionPointer).mapError .memory)
  match address? (machine.instructionPointer + 1) with
  | none => throw .addressOverflow
  | some next =>
    set { machine with instructionPointer := next }
    return some byte

/-- The next operand byte of the instruction with the given opcode and address. -/
def fetchOperand (op : Opcode) (address : Int) : Execution UInt8 := do
  match ← fetch with
  | some byte => return byte
  | none => throw (.truncatedOperand op address)

def fetchWord (op : Opcode) (address : Int) : Execution Word := do
  let b₀ ← fetchOperand op address
  let b₁ ← fetchOperand op address
  let b₂ ← fetchOperand op address
  let b₃ ← fetchOperand op address
  return Word.ofBytes b₀ b₁ b₂ b₃

/-- The instruction with the given opcode and address.  All its operands are fetched before any is looked at. -/
def fetchInstruction (op : Opcode) (address : Int) : Execution Instruction := do
  match op with
  | .noop => return .noop
  | .setReg => return .setReg (← fetchOperand op address) (← fetchWord op address)
  | .copyReg => return .copyReg (← fetchOperand op address) (← fetchOperand op address)
  | .xor => return .xor (← fetchOperand op address) (← fetchOperand op address)
  | .push => return .push (← fetchOperand op address)

/-- The value of a register. -/
def readRegister (op : Opcode) (address : Int) (register : UInt8) : Execution Word := do
  let machine ← get
  match machine.registers[register.toNat]? with
  | some value => return value
  | none => throw (.registerOutOfRange op address register machine.registers.size)

/-- Changes the value of a register. -/
def modifyRegister (op : Opcode) (address : Int) (register : UInt8) (change : Word → Word) : Execution Unit := do
  let value ← readRegister op address register
  modify fun machine =>
    { machine with registers := machine.registers.setIfInBounds register.toNat (change value) }

/-- Writes one byte of the value of a register to the top of the stack. -/
def pushByte (register : UInt8) (value : Word) (byte : UInt8) : Execution Unit := do
  let machine ← get
  match machine.memory.writeStack machine.stackTop byte with
  | .error cause => throw (.stackWrite register value cause)
  | .ok memory =>
    set { machine with memory }
    match address? (machine.stackTop - 1) with
    | none => throw .addressOverflow
    | some top => set { machine with memory, stackTop := top }

/-- Writes the bytes of a value to the stack, which grows down: the least significant byte has the highest address. -/
def pushWord (register : UInt8) (value : Word) : Execution Unit :=
  forM value.toBytes (pushByte register value)

/-- Executes an instruction that was fetched from the given address.  Where two registers are named, the source is
looked at first. -/
def execute (address : Int) : Instruction → Execution Unit
  | .noop => pure ()
  | .setReg dest value => modifyRegister .setReg address dest fun _ => value
  | .copyReg dest source => do
    let value ← readRegister .copyReg address source
    modifyRegister .copyReg address dest fun _ => value
  | .xor dest source => do
    let value ← readRegister .xor address source
    modifyRegister .xor address dest fun old => old ^^^ value
  | .push source => do
    let value ← readRegister .push address source
    pushWord source value

/-- Executes the instruction whose opcode byte was fetched from the given address. -/
def dispatch (address : Int) (byte : UInt8) : Execution Unit := do
  match Opcode.ofByte? byte with
  | none => throw (.invalidOpcode byte address)
  | some op => execute address (← fetchInstruction op address)

/-- Fetches and executes one instruction, unless the machine has halted. -/
def step : Execution Step := do
  let address := (← get).instructionPointer
  match ← fetch with
  | none => return .halted
  | some byte =>
    dispatch address byte
    return .executed

end Execution

end RegisterMachine
