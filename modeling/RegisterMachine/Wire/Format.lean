import RegisterMachine.Config
import RegisterMachine.Snapshot
import RegisterMachine.Wire.Varint

/-!
# Configurations and snapshots on the wire

The fields of a configuration or a snapshot are written one after the other with nothing between them.
-/

namespace RegisterMachine

open Wire

namespace Config

def encode (config : Config) : List UInt8 :=
  varint config.registerCount.toNat ++ varint config.stackSize.toNat ++ varint config.instructionOffset.toNat ++
    varint config.heapGap.toNat ++ varint config.stackOffset.toNat

def take : Decoder Config := do
  let registerCount ← takeUInt64
  let stackSize ← takeUInt32
  let instructionOffset ← takeUInt32
  let heapGap ← takeUInt32
  let stackOffset ← takeUInt32
  return { registerCount, stackSize, instructionOffset, heapGap, stackOffset }

/-- The configuration that the bytes start with.  Bytes behind it are ignored. -/
def decode? (bytes : List UInt8) : Option Config := (take.run bytes).map Prod.fst

end Config

namespace StackSample

def encode (sample : StackSample) : List UInt8 :=
  encodeInt32 sample.offset ++ encodeInt32 sample.address ++ [sample.value]

def take : Decoder StackSample := do
  let offset ← takeInt32
  let address ← takeInt32
  let value ← takeByte
  return { offset, address, value }

end StackSample

namespace Snapshot

def encode (snapshot : Snapshot) : List UInt8 :=
  encodeInt32 snapshot.instructionPointer ++ encodeInt32 snapshot.stackBase ++ encodeInt32 snapshot.stackTop ++
    encodeList encodeInt32 snapshot.registers ++ encodeList StackSample.encode snapshot.samples

def take : Decoder Snapshot := do
  let instructionPointer ← takeInt32
  let stackBase ← takeInt32
  let stackTop ← takeInt32
  let registers ← takeList takeInt32
  let samples ← takeList StackSample.take
  if h : samples.length ≤ 20 then
    return ⟨instructionPointer, stackBase, stackTop, registers, samples, h⟩
  else failure

/-- The snapshot that the bytes start with.  Bytes behind it are ignored. -/
def decode? (bytes : List UInt8) : Option Snapshot := (take.run bytes).map Prod.fst

end Snapshot

end RegisterMachine
