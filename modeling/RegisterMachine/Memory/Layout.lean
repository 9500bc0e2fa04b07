import RegisterMachine.Address
import RegisterMachine.Config

/-!
# Layouts

Where the three regions of memory lie.  From the lowest address up they are the program, the heap and the stack, with
an unmapped gap between the program and the heap.  The heap ends where the stack begins, and the stack grows down
from its base.
-/

namespace RegisterMachine

/-- Why memory cannot be laid out, read or written. -/
inductive MemoryError where
  | outOfBounds (address lowest highest : Int)
  | unmapped (address : Int)
  | readOnly (address : Int)
  | layout
deriving DecidableEq, Repr

def MemoryError.message : MemoryError → String
  | outOfBounds address lowest highest => s!"address {address} is outside {lowest}..={highest}"
  | unmapped address => s!"address {address} has never been written"
  | readOnly address => s!"address {address} is in the read-only instruction region"
  | layout => "memory regions do not fit in the address space"

inductive Region where
  | instructions
  | heap
  | stack
  | unmapped
deriving DecidableEq, Repr

/-- The bounds of the regions.  The program ends before `instructionsEnd`; the stack holds both its bounds. -/
structure Layout where
  instructionsStart : Int
  instructionsEnd : Int
  heapStart : Int
  stackBase : Int
  stackLimit : Int
deriving DecidableEq, Repr

namespace Layout

/-- Where the program starts if it is not moved up. -/
def lowestInstruction : Int := 1024

/-- Where the stack starts if it is not moved down. -/
def highestStack : Int := 2147482623

/-- The regions placed one after the other.  Each bound has to be an address, and the heap must not reach into the
stack. -/
def place? (programLength : Nat) (config : Config) : Option Layout := do
  let distance ← address? config.instructionOffset.toNat
  let instructionsStart ← address? (lowestInstruction + distance)
  let length ← address? programLength
  let instructionsEnd ← address? (instructionsStart + length)
  let gap ← address? config.heapGap.toNat
  let heapStart ← address? (instructionsEnd + gap)
  let depth ← address? config.stackOffset.toNat
  let stackBase ← address? (highestStack - depth)
  let size ← address? config.stackSize.toNat
  let stackLimit ← address? (stackBase - size)
  if heapStart ≤ stackLimit then
    some { instructionsStart, instructionsEnd, heapStart, stackBase, stackLimit }
  else none

def ofConfig (programLength : Nat) (config : Config) : Except MemoryError Layout :=
  match place? programLength config with
  | some layout => .ok layout
  | none => .error .layout

/-- The region that holds an address. -/
def regionOf (layout : Layout) (address : Int) : Region :=
  if layout.instructionsStart ≤ address ∧ address < layout.instructionsEnd then .instructions
  else if layout.stackLimit ≤ address ∧ address ≤ layout.stackBase then .stack
  else if layout.heapStart ≤ address ∧ address < layout.stackLimit then .heap
  else .unmapped

theorem regionOf_eq_instructions_iff {layout : Layout} {address : Int} :
    layout.regionOf address = .instructions ↔
      layout.instructionsStart ≤ address ∧ address < layout.instructionsEnd := by
  unfold regionOf
  split
  · rename_i h
    exact ⟨fun _ => h, fun _ => rfl⟩
  · rename_i h
    refine ⟨fun e => ?_, fun e => absurd e h⟩
    split at e
    · cases e
    · split at e <;> cases e

example : place? 10 {} = some ⟨1024, 1034, 1134, 2147482623, 2146434047⟩ := by decide

end Layout

end RegisterMachine
