import RegisterMachine.Memory.Layout
import Std.Data.TreeMap

/-!
# Memory

Memory of single bytes: a program that is never written, a heap that keeps only the bytes that were written, and a
stack that is kept from its base down to the lowest byte that was written.  A byte that was never written cannot be
read.
-/

namespace RegisterMachine

structure Memory where
  layout : Layout
  program : Array UInt8
  heap : Std.TreeMap Int UInt8 := {}
  /-- The stack from its base down, with holes where nothing was written. -/
  stack : Array (Option UInt8) := #[]

namespace Memory

/-- Memory that holds a program and nothing else. -/
def ofProgram (program : Array UInt8) (config : Config) : Except MemoryError Memory :=
  (Layout.ofConfig program.size config).map fun layout => { layout, program }

/-- How far one address lies above another. -/
def distance (low high : Int) : Except MemoryError Nat :=
  match address? (high - low) with
  | some n => if 0 ≤ n then .ok n.toNat else .error .layout
  | none => .error .layout

/-- The byte found at an address, if there is one. -/
def found (address : Int) : Option UInt8 → Except MemoryError UInt8
  | some byte => .ok byte
  | none => .error (.unmapped address)

/-- The byte at an address. -/
def read (memory : Memory) (address : Int) : Except MemoryError UInt8 :=
  match memory.layout.regionOf address with
  | .instructions => do
    let index ← distance memory.layout.instructionsStart address
    found address memory.program[index]?
  | .heap => found address memory.heap[address]?
  | .stack => do
    let depth ← distance address memory.layout.stackBase
    found address memory.stack[depth]?.join
  | .unmapped => .error (.unmapped address)

/-- The stack with holes added until it has the given size. -/
def deepen (stack : Array (Option UInt8)) (size : Nat) : Array (Option UInt8) :=
  stack ++ Array.replicate (size - stack.size) none

/-- Writes a byte between the limit of the stack and its base. -/
def writeStack (memory : Memory) (address : Int) (byte : UInt8) : Except MemoryError Memory :=
  if memory.layout.stackLimit ≤ address ∧ address ≤ memory.layout.stackBase then do
    let depth ← distance address memory.layout.stackBase
    let stack := deepen memory.stack (depth + 1)
    if depth < stack.size then .ok { memory with stack := stack.setIfInBounds depth (some byte) }
    else .error .layout
  else .error (.outOfBounds address memory.layout.stackLimit memory.layout.stackBase)

/-- Writes a byte to the heap. -/
def writeHeap (memory : Memory) (address : Int) (byte : UInt8) : Except MemoryError Memory :=
  match memory.layout.regionOf address with
  | .heap => .ok { memory with heap := memory.heap.insert address byte }
  | .instructions => .error (.readOnly address)
  | .stack | .unmapped =>
    .error (.outOfBounds address memory.layout.heapStart (memory.layout.stackLimit - 1))

theorem distance_eq_ok {low high : Int} (hle : low ≤ high) (hlt : high - low ≤ 2147483647) :
    distance low high = .ok (high - low).toNat := by
  have haddress : address? (high - low) = some (high - low) := by
    rw [address?_eq_some_iff]
    omega
  rw [distance, haddress]
  exact if_pos (by omega)

@[simp] theorem size_deepen (stack : Array (Option UInt8)) (size : Nat) :
    (deepen stack size).size = max stack.size size := by
  rw [deepen, Array.size_append, Array.size_replicate]
  omega

/-- The memory with a byte on the stack, at the given distance below its base. -/
def put (memory : Memory) (depth : Nat) (byte : UInt8) : Memory :=
  { memory with stack := (deepen memory.stack (depth + 1)).setIfInBounds depth (some byte) }

/-- Every byte between the limit of the stack and its base can be put on the stack. -/
theorem writeStack_eq {memory : Memory} {address : Int} {byte : UInt8}
    (hlow : memory.layout.stackLimit ≤ address) (hhigh : address ≤ memory.layout.stackBase)
    (hlt : memory.layout.stackBase - address ≤ 2147483647) :
    memory.writeStack address byte = .ok (memory.put (memory.layout.stackBase - address).toNat byte) := by
  rw [writeStack, if_pos ⟨hlow, hhigh⟩, distance_eq_ok hhigh hlt]
  refine if_pos ?_
  rw [size_deepen]
  omega

theorem layout_eq_of_writeStack {memory after : Memory} {address : Int} {byte : UInt8}
    (h : memory.writeStack address byte = .ok after) : after.layout = memory.layout := by
  unfold writeStack at h
  split at h
  · cases hdepth : distance address memory.layout.stackBase with
    | error cause =>
      rw [hdepth] at h
      cases h
    | ok depth =>
      rw [hdepth] at h
      simp only [bind, Except.bind] at h
      split at h
      · cases h
        rfl
      · cases h
  · cases h

end Memory

end RegisterMachine
