import RegisterMachine.Directive
import RegisterMachine.Literal

/-!
# Assembly errors

Why a chunk of source cannot be loaded or the loaded chunks cannot be linked, and the line to look at.
-/

namespace RegisterMachine

/-- What the reader of a chunk was waiting for. -/
inductive Expectation where
  | statement
  | operand (directive : Directive)
deriving DecidableEq, Repr

def Expectation.describe : Expectation → String
  | statement => "a mnemonic, directive or byte literal"
  | operand .label => "a label name"
  | operand .int => "an integer or label name"
  | operand .hex => "a hex sequence"

inductive AssemblyError.Cause where
  | encode (error : EncodeError)
  | unexpectedToken (expected : Expectation) (found : Token)
  | missingOperand (directive : Directive)
  | duplicateLabel (name : String)
  | undefinedLabel (name : String) (chunk : Nat)
  | addressOverflow
  | halted
deriving DecidableEq, Repr

def AssemblyError.Cause.message : AssemblyError.Cause → String
  | encode error => error.message
  | unexpectedToken expected found => s!"expected {expected.describe}, found {found.describe}"
  | missingOperand directive => s!"`{directive.keyword}` directive is missing its operand"
  | duplicateLabel name => s!"label `{name}` is already defined"
  | undefinedLabel name chunk => s!"label `{name}` referenced in chunk {chunk} is not defined"
  | addressOverflow => "program does not fit in the 32-bit address space"
  | halted => "assembly halted by an earlier error"

/-- A cause together with the line of the chunk it arose on, where there is one. -/
structure AssemblyError where
  cause : AssemblyError.Cause
  line : Option Nat
deriving DecidableEq, Repr

def AssemblyError.message (error : AssemblyError) : String :=
  match error.line with
  | none => error.cause.message
  | some line => s!"line {line}: {error.cause.message}"

end RegisterMachine
