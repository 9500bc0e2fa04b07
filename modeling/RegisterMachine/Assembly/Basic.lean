import RegisterMachine.Address
import RegisterMachine.Item.Chunk
import Std.Data.TreeMap

/-!
# Assemblies

An assembly is the program that the chunks loaded so far make, together with the labels they define and the
references to labels that still wait for an address.  Chunks share one set of labels, so a chunk may refer to a
label that another chunk defines.  A chunk that fails halts the assembly for good.
-/

namespace RegisterMachine

/-- A place in the code that waits for the address of a label. -/
structure Reference where
  offset : Nat
  name : String
  /-- The chunk that refers to the label, from 1. -/
  chunk : Nat
  /-- The line within the chunk. -/
  line : Nat
deriving DecidableEq, Repr

structure Assembly where
  base : Int
  code : Array UInt8 := #[]
  labels : Std.TreeMap String Nat := {}
  pending : Array Reference := #[]
  loads : Nat := 0
  halted : Bool := false

/-- An action on an assembly.  What it did before it failed stays done. -/
abbrev Assembling := EStateM AssemblyError Assembly

namespace Assembly

/-- An assembly to which nothing is loaded.  Labels stand for their offset from the base. -/
def empty (base : Int) : Assembly := { base }

/-- The number of chunks loaded, the failed one included.  The count stops at the largest number of 32 bits. -/
def chunkCount (assembly : Assembly) : Nat := min assembly.loads 4294967295

def label? (assembly : Assembly) (name : String) : Option Nat := assembly.labels[name]?

/-- The labels with their offsets, in the order of the names. -/
def labelList (assembly : Assembly) : List (String × Nat) := assembly.labels.toList

def append (bytes : List UInt8) (assembly : Assembly) : Assembly :=
  { assembly with code := assembly.code ++ bytes }

def define (name : String) (assembly : Assembly) : Assembly :=
  { assembly with labels := assembly.labels.insert name assembly.code.size }

/-- Makes the next word of the code a reference. -/
def refer (name : String) (line : Nat) (assembly : Assembly) : Assembly :=
  { assembly with pending := assembly.pending.push ⟨assembly.code.size, name, assembly.chunkCount, line⟩ }

end Assembly

namespace Assembling

/-- Labels and references stand at offsets of 32 bits without sign. -/
def checkOffset (line : Nat) : Assembling Unit := do
  unless (← get).code.size < 4294967296 do throw ⟨.addressOverflow, some line⟩

/-- Adds one item to the code. -/
def add (item : SourceItem) : Assembling Unit := do
  match item.item with
  | .label name =>
    if (← get).labels.contains name then throw ⟨.duplicateLabel name, some item.line⟩
    checkOffset item.line
    modify (Assembly.define name)
  | .reference name =>
    checkOffset item.line
    modify (Assembly.refer name item.line)
  | _ => pure ()
  modify (Assembly.append item.item.toBytes)

/-- Adds the items of a chunk, up to the first that cannot be added, then fails if the chunk does not read to its
end. -/
def addChunk (chunk : Chunk) : Assembling Unit := do
  forM chunk.items add
  match chunk.failure with
  | some error => throw error
  | none => pure ()

def checkRunning : Assembling Unit := do
  if (← get).halted then throw ⟨.halted, none⟩

/-- Loads one chunk of source.  A failure keeps the items before it and halts the assembly. -/
def load (source : String) : Assembling Unit := do
  checkRunning
  modify fun assembly => { assembly with loads := assembly.loads + 1 }
  try addChunk (Chunk.ofSource source)
  catch error =>
    modify fun assembly => { assembly with halted := true }
    throw error

end Assembling

end RegisterMachine
