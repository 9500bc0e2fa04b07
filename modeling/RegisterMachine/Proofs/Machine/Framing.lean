import RegisterMachine.Proofs.Machine.Defect
import RegisterMachine.Proofs.Machine.Invariant

/-!
# Framing

How far a step moves the instruction pointer, and which of several faults it reports.  A byte that is no opcode is taken
alone, an opcode takes as many operand bytes as the table of opcodes says, and where the program ends before them a step
takes what is left (`Machine.Matches.exists_framed_step`).  Only behind a whole instruction the registers count, the
source before the one that receives, and then the room on the stack (`Machine.Concludes`).
-/

namespace RegisterMachine

open Execution

/-- The bytes can be read one after the other, the first of them at the address. -/
def Memory.ReadsFrom (memory : Memory) (address : Int) (bytes : List UInt8) : Prop :=
  ∀ (index : Nat) byte, bytes[index]? = some byte → memory.read (address + index) = .ok byte

theorem Memory.ReadsFrom.of_append {memory : Memory} {address : Int} {front back : List UInt8}
    (h : memory.ReadsFrom address (front ++ back)) : memory.ReadsFrom address front := by
  intro index byte hbyte
  obtain ⟨hlt, -⟩ := List.getElem?_eq_some_iff.1 hbyte
  apply h
  rw [List.getElem?_append_left hlt, hbyte]

namespace Instruction

/-- The register whose value the instruction hands on. -/
def source? : Instruction → Option UInt8
  | copyReg _ source | xor _ source | push source => some source
  | noop | setReg _ _ => none

/-- The register that receives. -/
def dest? : Instruction → Option UInt8
  | setReg dest _ | copyReg dest _ | xor dest _ => some dest
  | noop | push _ => none

/-- The source is looked at first. -/
theorem named_eq (instruction : Instruction) :
    instruction.named = instruction.source?.toList ++ instruction.dest?.toList := by
  cases instruction <;> rfl

theorem missing?_eq_some_iff {instruction : Instruction} {count : Nat} {register : UInt8} :
    instruction.missing? count = some register ↔
      (instruction.source? = some register ∧ count ≤ register.toNat) ∨
      ((∀ source, instruction.source? = some source → source.toNat < count) ∧
        instruction.dest? = some register ∧ count ≤ register.toNat) := by
  have hfind (register? : Option UInt8) : (register?.toList.find? fun register => decide (count ≤ register.toNat)) =
      register?.filter fun register => decide (count ≤ register.toNat) := by
    rw [← List.head?_filter, ← Option.toList_filter, Option.head?_toList]
  rw [missing?, named_eq, List.find?_append, hfind, hfind, Option.or_eq_some_iff, Option.filter_eq_some_iff,
    Option.filter_eq_none_iff, Option.filter_eq_some_iff]
  simp only [decide_eq_true_eq, Nat.not_le]

end Instruction

namespace Machine

/-- The number of bytes that can still be pushed. -/
def free (machine : Machine) : Int := machine.stackTop - machine.memory.layout.stackLimit + 1

/-- How a step can conclude that has fetched a whole instruction from the address: in one of three faults, or in none.
A source that does not exist is reported before a register that should receive and does not exist, and a push needs
four free bytes. -/
inductive Concludes (machine : Machine) (address : Int) (instruction : Instruction) : Option Fault → Prop where
  | missingSource {source : UInt8} (hsource : instruction.source? = some source)
      (hmissing : machine.registers.size ≤ source.toNat) :
      machine.Concludes address instruction
        (some (.registerOutOfRange instruction.opcode address source machine.registers.size))
  | missingDest {dest : UInt8}
      (hsource : ∀ source, instruction.source? = some source → source.toNat < machine.registers.size)
      (hdest : instruction.dest? = some dest) (hmissing : machine.registers.size ≤ dest.toNat) :
      machine.Concludes address instruction
        (some (.registerOutOfRange instruction.opcode address dest machine.registers.size))
  | full {source : UInt8} {value : Word} (hpush : instruction = .push source)
      (hvalue : machine.registers[source.toNat]? = some value) (hfree : machine.free < 4) :
      machine.Concludes address instruction
        (some (.stackWrite source value (.outOfBounds (machine.memory.layout.stackLimit - 1)
          machine.memory.layout.stackLimit machine.memory.layout.stackBase)))
  | completes (hsource : ∀ source, instruction.source? = some source → source.toNat < machine.registers.size)
      (hdest : ∀ dest, instruction.dest? = some dest → dest.toNat < machine.registers.size)
      (hfree : ∀ source, instruction = .push source → 4 ≤ machine.free) :
      machine.Concludes address instruction none

variable {program : Array UInt8} {layout : Layout} {machine : Machine} {store : Store} {bytes rest : List UInt8}

/-- At most one fault applies. -/
theorem Concludes.unique {address : Int} {instruction : Instruction} {first? second? : Option Fault}
    (h : machine.Concludes address instruction first?) (h' : machine.Concludes address instruction second?) :
    first? = second? := by
  -- A source is handed on by a push too, and a register that holds a value exists.
  have hpush {source : UInt8} (hpush : instruction = .push source) : instruction.source? = some source := by
    rw [hpush]
    rfl
  have hlt {source : UInt8} {value : Word} (hvalue : machine.registers[source.toNat]? = some value) :
      source.toNat < machine.registers.size := (Array.getElem?_eq_some_iff.1 hvalue).1
  have hnone {source : UInt8} (hpush : instruction = .push source) : instruction.dest? = none := by
    rw [hpush]
    rfl
  cases h with
  | missingSource hsource hmissing => cases h' <;> grind
  | missingDest hsource hdest hmissing => cases h' <;> grind
  | full hinstruction hvalue hfree => cases h' <;> grind
  | completes hsource hdest hfree => cases h' <;> grind

theorem Matches.free_eq (h : machine.Matches program layout rest store) :
    machine.free = layout.capacity - store.pushed.length := by
  have hlimit := h.fits.stackLimit_le
  rw [free, h.stackTop_eq, h.layout_eq, Layout.capacity]
  omega

/-- From the instruction pointer on lie the bytes still to fetch. -/
theorem Matches.readsFrom (h : machine.Matches program layout rest store) :
    machine.memory.ReadsFrom machine.instructionPointer rest := by
  induction rest generalizing machine with
  | nil =>
    intro index byte hbyte
    cases hbyte
  | cons first rest ih =>
    intro index byte hbyte
    cases index with
    | zero =>
      rw [List.getElem?_cons_zero] at hbyte
      cases hbyte
      simpa using h.read_instructionPointer
    | succ index =>
      -- Behind the first byte the machine stands where a fetch leaves it, with the same memory.
      have hnext := ih h.fetched index byte hbyte
      have haddress : machine.instructionPointer + 1 + (index : Int) = machine.instructionPointer + (index + 1 : Nat) := by
        omega
      rwa [← haddress]

/-- The fault of an instruction is the one that comes first. -/
theorem Matches.concludes (h : machine.Matches program layout rest store) (address : Int) (instruction : Instruction) :
    machine.Concludes address instruction (instruction.fault? layout address store) := by
  have hfree := h.free_eq
  have hregisters := h.registers_eq
  unfold Instruction.fault?
  cases hmissing : instruction.missing? store.registers.size with
  | some register =>
    rw [← hregisters] at hmissing ⊢
    rcases Instruction.missing?_eq_some_iff.1 hmissing with ⟨hsource, hle⟩ | ⟨hpresent, hdest, hle⟩
    · exact .missingSource hsource hle
    · exact .missingDest hpresent hdest hle
  | none =>
    rw [← hregisters, Instruction.missing?_eq_none_iff, Instruction.named_eq] at hmissing
    have hsource : ∀ source, instruction.source? = some source → source.toNat < machine.registers.size := by
      intro source hsource
      exact hmissing source (by simp [hsource])
    have hdest : ∀ dest, instruction.dest? = some dest → dest.toNat < machine.registers.size := by
      intro dest hdest
      exact hmissing dest (by simp [hdest])
    cases instruction with
    | push source =>
      have hvalue : machine.registers[source.toNat]? = some (store.registers.getD source.toNat 0) := by
        rw [← hregisters, Instruction.getElem?_eq_some_getD (hsource source rfl)]
      simp only [Instruction.overflow?]
      split
      · rw [← h.layout_eq]
        exact .full rfl hvalue (by omega)
      · exact .completes hsource hdest fun _ _ => by omega
    | _ => exact .completes hsource hdest (by rintro _ ⟨⟩)

/-- What one step takes of the bytes that are still to fetch, and how it ends. -/
theorem Matches.exists_framed_step {byte : UInt8} (h : machine.Matches program layout (byte :: bytes) store) :
    ∃ last, match Opcode.ofByte? byte with
      | none => step.run machine = .error (.invalidOpcode byte machine.instructionPointer) last ∧
          last.instructionPointer = machine.instructionPointer + 1
      | some op =>
        if layout.instructionsEnd - (machine.instructionPointer + 1) < op.operandLength then
          step.run machine = .error (.truncatedOperand op machine.instructionPointer) last ∧
            last.instructionPointer = layout.instructionsEnd
        else
          last.instructionPointer = machine.instructionPointer + 1 + op.operandLength ∧
            ∃ instruction fault?, instruction.opcode = op ∧
              machine.memory.ReadsFrom machine.instructionPointer instruction.toBytes ∧
              machine.Concludes machine.instructionPointer instruction fault? ∧
              step.run machine = ended fault? .executed last := by
  have hpointer := h.instructionPointer_eq
  rw [List.length_cons] at hpointer
  cases hop : Opcode.ofByte? byte with
  | none =>
    obtain ⟨last, hlast, hrun⟩ := run_step_of_unassigned h hop
    refine ⟨last, ?_, ?_⟩
    · rw [hrun, hpointer]
    · rw [hlast.instructionPointer_eq]
      omega
  | some op =>
    cases hread : Instruction.ofOperands? op bytes with
    | none =>
      obtain ⟨last, hlast, hrun⟩ := run_step_of_cutShort h hop hread
      have hshort := Instruction.ofOperands?_eq_none_iff.1 hread
      refine ⟨last, ?_⟩
      dsimp only
      rw [if_pos (by omega), hrun, hpointer, hlast.instructionPointer_eq]
      simp
    | some pair =>
      obtain ⟨instruction, left⟩ := pair
      obtain ⟨last, hlast, hrun⟩ := run_step_of_instruction h hop hread
      obtain ⟨rfl, rfl⟩ := Instruction.eq_of_ofOperands? hread
      have hlength : (instruction.operands ++ left).length = instruction.opcode.operandLength + left.length := by
        rw [List.length_append, Instruction.length_operands]
      have hbytes : byte :: (instruction.operands ++ left) = instruction.toBytes ++ left := by
        rw [Instruction.toBytes, Opcode.toByte_of_ofByte? hop, List.cons_append]
      have hreads := h.readsFrom
      rw [hbytes] at hreads
      rw [← hpointer] at hrun
      refine ⟨last, ?_⟩
      dsimp only
      rw [if_neg (by omega), hlast.instructionPointer_eq]
      exact ⟨by omega, instruction, _, rfl, hreads.of_append, h.concludes _ instruction, hrun⟩

/-- Whatever was asked of a machine before, a step inside the program reads the byte at the instruction pointer.  If it
is no opcode, the step reports it and stands behind it.  If fewer bytes follow than the opcode has operands, the step
reports this, whatever the operands are, and stands at the end of the program.  Otherwise it stands behind the
instruction, however it ends: in the first fault that applies, or in none. -/
theorem framing_of_step {program : Array UInt8} {config : Config} {machine : Machine}
    (h : Machine.build program config = .ok machine) (calls : List Call)
    (hinside : (machine.afterCalls calls).instructionPointer < machine.memory.layout.instructionsEnd) :
    let layout := machine.memory.layout
    let now := machine.afterCalls calls
    let address := now.instructionPointer
    now.registers.size = config.registerCount.toNat ∧
    ∃ byte last, now.memory.read address = .ok byte ∧
      match Opcode.ofByte? byte with
      | none => step.run now = .error (.invalidOpcode byte address) last ∧ last.instructionPointer = address + 1
      | some op =>
        if layout.instructionsEnd - (address + 1) < op.operandLength then
          step.run now = .error (.truncatedOperand op address) last ∧
            last.instructionPointer = layout.instructionsEnd
        else
          last.instructionPointer = address + 1 + op.operandLength ∧
            ∃ instruction fault?, instruction.opcode = op ∧ now.memory.ReadsFrom address instruction.toBytes ∧
              now.Concludes address instruction fault? ∧ step.run now = ended fault? .executed last := by
  intro layout now address
  obtain ⟨rest, store, hnow, -, hstore⟩ := (matches_of_build h).exists_of_steps (steps_afterCalls machine calls)
  refine ⟨?_, ?_⟩
  · rw [hnow.registers_eq, hstore.size_registers, Store.initial, Array.size_replicate]
  · cases rest with
    | nil =>
      have hend := hnow.instructionPointer_eq_end_iff.2 rfl
      exact absurd hend (Int.ne_of_lt hinside)
    | cons byte bytes =>
      obtain ⟨last, hstep⟩ := hnow.exists_framed_step
      exact ⟨byte, last, hnow.read_instructionPointer, hstep⟩

/-- Neither register of the first instruction exists, and the source is reported.  The second one is cut short, which
hides that its register does not exist either. -/
theorem framing_of_step_missing_registers :
    ∃ machine, Machine.build #[3, 9, 7, 1, 200, 7] { registerCount := 2 } = .ok machine ∧
      (∃ last, step.run machine = .error (.registerOutOfRange .xor 1024 7 2) last ∧
        last.instructionPointer = 1027) ∧
      ∃ last, step.run (machine.afterCalls [.step]) = .error (.truncatedOperand .setReg 1027) last ∧
        last.instructionPointer = 1030 := by
  obtain ⟨machine, h⟩ : ∃ machine, Machine.build #[3, 9, 7, 1, 200, 7] { registerCount := 2 } = .ok machine :=
    ⟨_, rfl⟩
  have hend : machine.memory.layout.instructionsEnd = 1030 ∧ machine.instructionPointer = 1024 := by
    cases h
    decide
  have hreads : machine.memory.read 1024 = .ok 3 ∧ machine.memory.read 1026 = .ok 7 := by
    cases h
    exact ⟨rfl, rfl⟩
  have hnext : (machine.afterCalls [.step]).instructionPointer = 1027 ∧
      (machine.afterCalls [.step]).memory.read 1027 = .ok 1 := by
    cases h
    exact ⟨rfl, rfl⟩
  refine ⟨machine, h, ?_, ?_⟩
  · obtain ⟨hcount, byte, last, hbyte, hstep⟩ := framing_of_step h [] (by
      rw [hend.1, afterCalls_nil, hend.2]
      decide)
    rw [afterCalls_nil, hend.2, hreads.1] at hbyte
    cases hbyte
    rw [show Opcode.ofByte? 3 = some .xor by decide] at hstep
    simp only [hend, afterCalls_nil] at hstep hcount
    rw [if_neg (by decide)] at hstep
    obtain ⟨hpointer, instruction, fault?, hop, hbytes, hconcludes, hrun⟩ := hstep
    cases instruction with
    | xor dest source =>
      have hsource := hbytes 2 source rfl
      cases hreads.2.symm.trans hsource
      have hfault := hconcludes.unique (.missingSource rfl (by rw [hcount]; decide))
      rw [hfault, hcount] at hrun
      exact ⟨last, hrun, hpointer⟩
    | _ => cases hop
  · obtain ⟨-, byte, last, hbyte, hstep⟩ := framing_of_step h [.step] (by
      rw [hend.1, hnext.1]
      decide)
    rw [hnext.1, hnext.2] at hbyte
    cases hbyte
    rw [show Opcode.ofByte? 1 = some .setReg by decide, hend.1, hnext.1] at hstep
    exact ⟨last, hstep⟩

end Machine

end RegisterMachine
