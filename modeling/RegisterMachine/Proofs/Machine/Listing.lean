import RegisterMachine.Instruction

/-!
# Listings

What a program says, read ahead of any run: its instructions in the order of their addresses, and what stands behind
the last whole one.  A program is the bytes of its listing and nothing else (`exists_tail_ofBytes`), and reading
instructions back that were written one after the other gives them again (`ofBytes_append`).
-/

namespace RegisterMachine

namespace Instruction

/-- The instruction with the given opcode whose operands the bytes start with, and the bytes behind it. -/
def ofOperands? : Opcode → List UInt8 → Option (Instruction × List UInt8)
  | .noop, rest => some (noop, rest)
  | .setReg, dest :: b₀ :: b₁ :: b₂ :: b₃ :: rest => some (setReg dest (Word.ofBytes b₀ b₁ b₂ b₃), rest)
  | .copyReg, dest :: source :: rest => some (copyReg dest source, rest)
  | .xor, dest :: source :: rest => some (xor dest source, rest)
  | .push, source :: rest => some (push source, rest)
  | _, _ => none

theorem ofOperands?_operands (instruction : Instruction) (rest : List UInt8) :
    ofOperands? instruction.opcode (instruction.operands ++ rest) = some (instruction, rest) := by
  cases instruction with
  | setReg dest value =>
    obtain ⟨b₀, b₁, b₂, b₃, h⟩ : ∃ b₀ b₁ b₂ b₃, value.toBytes = [b₀, b₁, b₂, b₃] := ⟨_, _, _, _, rfl⟩
    simp only [operands, opcode, h, List.cons_append, List.nil_append, ofOperands?, Word.ofBytes_of_toBytes_eq h]
  | _ => rfl

theorem eq_of_ofOperands? {op : Opcode} {bytes rest : List UInt8} {instruction : Instruction}
    (h : ofOperands? op bytes = some (instruction, rest)) :
    instruction.opcode = op ∧ bytes = instruction.operands ++ rest := by
  unfold ofOperands? at h
  split at h <;> cases h <;> simp [opcode, operands, Word.toBytes_ofBytes]

theorem ofOperands?_eq_none_iff {op : Opcode} {bytes : List UInt8} :
    ofOperands? op bytes = none ↔ bytes.length < op.operandLength := by
  constructor
  · intro h
    cases op with
    | noop => cases h
    | setReg =>
      rcases bytes with _ | ⟨_, _ | ⟨_, _ | ⟨_, _ | ⟨_, _ | ⟨_, _⟩⟩⟩⟩⟩ <;> simp_all [ofOperands?, Opcode.operandLength]
    | copyReg | xor => rcases bytes with _ | ⟨_, _ | ⟨_, _⟩⟩ <;> simp_all [ofOperands?, Opcode.operandLength]
    | push => rcases bytes with _ | ⟨_, _⟩ <;> simp_all [ofOperands?, Opcode.operandLength]
  · intro h
    cases hread : ofOperands? op bytes with
    | none => rfl
    | some pair =>
      obtain ⟨rfl, rfl⟩ := eq_of_ofOperands? hread
      rw [List.length_append, length_operands] at h
      omega

end Instruction

/-- What stands behind the last whole instruction of a program: nothing, a byte that is no opcode, or an opcode
without all its operands. -/
inductive Ending where
  | complete
  | unassigned (byte : UInt8)
  | cutShort (op : Opcode)
deriving DecidableEq, Repr

/-- The bytes that an ending stands for. -/
def Ending.Fits : Ending → List UInt8 → Prop
  | complete, tail => tail = []
  | unassigned byte, tail => Opcode.ofByte? byte = none ∧ ∃ rest, tail = byte :: rest
  | cutShort op, tail => ∃ rest, tail = op.toByte :: rest ∧ rest.length < op.operandLength

structure Listing where
  instructions : List Instruction
  ending : Ending
deriving DecidableEq, Repr

namespace Listing

/-- Reads instructions until the bytes end or do not start with a whole instruction. -/
def ofBytes : List UInt8 → Listing
  | [] => ⟨[], .complete⟩
  | byte :: bytes =>
    match Opcode.ofByte? byte with
    | none => ⟨[], .unassigned byte⟩
    | some op =>
      match _ : Instruction.ofOperands? op bytes with
      | none => ⟨[], .cutShort op⟩
      | some (instruction, rest) =>
        let others := ofBytes rest
        { others with instructions := instruction :: others.instructions }
termination_by bytes => bytes.length
decreasing_by
  rename_i h
  rw [(Instruction.eq_of_ofOperands? h).2, List.length_cons, List.length_append]
  omega

@[simp] theorem ofBytes_nil : ofBytes [] = ⟨[], .complete⟩ := by rw [ofBytes]

theorem ofBytes_of_unassigned {byte : UInt8} (h : Opcode.ofByte? byte = none) (bytes : List UInt8) :
    ofBytes (byte :: bytes) = ⟨[], .unassigned byte⟩ := by
  rw [ofBytes, h]

theorem ofBytes_of_cutShort {byte : UInt8} {op : Opcode} {bytes : List UInt8} (hop : Opcode.ofByte? byte = some op)
    (h : Instruction.ofOperands? op bytes = none) : ofBytes (byte :: bytes) = ⟨[], .cutShort op⟩ := by
  rw [ofBytes, hop]
  dsimp only
  split <;> simp_all

theorem ofBytes_of_instruction {byte : UInt8} {op : Opcode} {bytes rest : List UInt8} {instruction : Instruction}
    (hop : Opcode.ofByte? byte = some op) (h : Instruction.ofOperands? op bytes = some (instruction, rest)) :
    ofBytes (byte :: bytes) = ⟨instruction :: (ofBytes rest).instructions, (ofBytes rest).ending⟩ := by
  rw [ofBytes, hop]
  dsimp only
  split <;> simp_all

/-- Instructions written one after the other are read back, whatever follows them. -/
theorem ofBytes_append (instructions : List Instruction) (tail : List UInt8) :
    ofBytes (instructions.flatMap Instruction.toBytes ++ tail) =
      ⟨instructions ++ (ofBytes tail).instructions, (ofBytes tail).ending⟩ := by
  induction instructions with
  | nil => rfl
  | cons instruction instructions ih =>
    rw [List.flatMap_cons, List.append_assoc, Instruction.toBytes, List.cons_append,
      ofBytes_of_instruction (Opcode.ofByte?_toByte _) (Instruction.ofOperands?_operands _ _), ih, List.cons_append]

/-- A program is the bytes of the instructions listed and a tail that the ending stands for. -/
theorem exists_tail_ofBytes (bytes : List UInt8) :
    ∃ tail, (ofBytes bytes).ending.Fits tail ∧
      bytes = (ofBytes bytes).instructions.flatMap Instruction.toBytes ++ tail := by
  fun_induction ofBytes bytes with
  | case1 => exact ⟨[], rfl, rfl⟩
  | case2 byte bytes h => exact ⟨_, ⟨h, bytes, rfl⟩, rfl⟩
  | case3 byte bytes op hop h =>
    refine ⟨_, ⟨bytes, ?_, Instruction.ofOperands?_eq_none_iff.1 h⟩, rfl⟩
    rw [Opcode.toByte_of_ofByte? hop]
  | case4 byte bytes op hop instruction rest h others ih =>
    obtain ⟨tail, hfits, htail⟩ := ih
    obtain ⟨rfl, rfl⟩ := Instruction.eq_of_ofOperands? h
    refine ⟨tail, hfits, ?_⟩
    rw [List.flatMap_cons, List.append_assoc, ← htail, Instruction.toBytes, Opcode.toByte_of_ofByte? hop,
      List.cons_append]

/-- The number of bytes in front of the instruction behind the given number of others, or of the ending. -/
def offset (listing : Listing) (index : Nat) : Nat :=
  ((listing.instructions.take index).flatMap Instruction.toBytes).length

/-- The number of bytes up to the end of this instruction, or of what is fetched of the ending, in a program of the
given size. -/
def reach (size : Nat) (listing : Listing) (index : Nat) : Nat :=
  match listing.instructions[index]? with
  | some instruction => listing.offset index + instruction.toBytes.length
  | none =>
    match listing.ending with
    | .complete => listing.offset index
    | .unassigned _ => listing.offset index + 1
    | .cutShort _ => size

theorem offset_cons_succ (instruction : Instruction) (instructions : List Instruction) (ending : Ending)
    (index : Nat) : offset ⟨instruction :: instructions, ending⟩ (index + 1) =
      instruction.toBytes.length + offset ⟨instructions, ending⟩ index := by
  simp only [offset, List.take_succ_cons, List.flatMap_cons, List.length_append]

theorem reach_cons_succ (size : Nat) (instruction : Instruction) (instructions : List Instruction) (ending : Ending)
    (index : Nat) : reach (instruction.toBytes.length + size) ⟨instruction :: instructions, ending⟩ (index + 1) =
      instruction.toBytes.length + reach size ⟨instructions, ending⟩ index := by
  simp only [reach, List.getElem?_cons_succ, offset_cons_succ]
  cases instructions[index]? with
  | some other => exact Nat.add_assoc _ _ _
  | none => cases ending <;> simp only [Nat.add_assoc]

/-- No more is fetched than there is. -/
theorem reach_ofBytes_le (bytes : List UInt8) (index : Nat) :
    (ofBytes bytes).reach bytes.length index ≤ bytes.length := by
  fun_induction ofBytes bytes generalizing index with
  | case1 => simp [reach, offset]
  | case2 byte bytes hop => simp [reach, offset]
  | case3 byte bytes op hop hread => simp [reach]
  | case4 byte bytes op hop instruction rest hread others ih =>
    obtain ⟨rfl, rfl⟩ := Instruction.eq_of_ofOperands? hread
    have hlength : (byte :: (instruction.operands ++ rest)).length = instruction.toBytes.length + rest.length := by
      simp only [Instruction.toBytes, List.length_cons, List.length_append]
      omega
    rw [hlength]
    cases index with
    | zero => simp [reach, offset]
    | succ index =>
      rw [reach_cons_succ]
      exact Nat.add_le_add_left (ih index) _

end Listing

end RegisterMachine
