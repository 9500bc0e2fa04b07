import RegisterMachine.Proofs.Machine.Fetching

/-!
# Simulation

Executing an instruction has its effect on the store (`run_execute_of_matches`), so one step of a machine does what
the listing of the bytes in front of it says: it halts, meets one of the two bad endings, or executes the first
instruction and stands behind it (`run_step_of_instruction`).
-/

namespace RegisterMachine

namespace Execution


variable {program : Array UInt8} {layout : Layout} {machine : Machine} {store : Store} {bytes rest : List UInt8}

/-! ### Executing -/

private theorem run_readRegister_of_lt (h : machine.Matches program layout rest store) (op : Opcode) (address : Int)
    {register : UInt8} (hlt : register.toNat < store.registers.size) :
    (readRegister op address register).run machine = .ok (store.registers.getD register.toNat 0) machine := by
  have hread : machine.registers[register.toNat]? = some (store.registers.getD register.toNat 0) := by
    rw [h.registers_eq, Instruction.getElem?_eq_some_getD hlt]
  simp [readRegister, hread]

private theorem run_readRegister_of_le (h : machine.Matches program layout rest store) (op : Opcode) (address : Int)
    {register : UInt8} (hle : store.registers.size ≤ register.toNat) :
    (readRegister op address register).run machine =
      .error (.registerOutOfRange op address register store.registers.size) machine := by
  have hread : machine.registers[register.toNat]? = none := by
    rw [h.registers_eq, Array.getElem?_eq_none hle]
  simp only [readRegister, EStateM.run_bind, EStateM.run_get, hread]
  rw [h.registers_eq]
  rfl

private theorem run_modifyRegister_of_lt (h : machine.Matches program layout rest store) (op : Opcode) (address : Int)
    {register : UInt8} (change : Word → Word) (hlt : register.toNat < store.registers.size) :
    (modifyRegister op address register change).run machine =
      .ok () { machine with
        registers := store.registers.setIfInBounds register.toNat
          (change (store.registers.getD register.toNat 0)) } := by
  rw [modifyRegister, run_bind_of_ok (run_readRegister_of_lt h op address hlt), EStateM.run_modify, h.registers_eq]

private theorem run_modifyRegister_of_le (h : machine.Matches program layout rest store) (op : Opcode) (address : Int)
    {register : UInt8} (change : Word → Word) (hle : store.registers.size ≤ register.toNat) :
    (modifyRegister op address register change).run machine =
      .error (.registerOutOfRange op address register store.registers.size) machine :=
  run_bind_of_error (run_readRegister_of_le h op address hle)

private theorem run_pushByte_of_lt (h : machine.Matches program layout rest store) (register : UInt8) (value : Word)
    (byte : UInt8) (hroom : store.pushed.length < layout.capacity) :
    (pushByte register value byte).run machine = .ok () { machine with
      memory := machine.memory.put store.pushed.length byte
      stackTop := machine.stackTop - 1 } := by
  have htop := h.stackTop_eq
  obtain ⟨hlow, hend, hheap, hlimit, -, hhigh⟩ := h.fits.bounds
  unfold Layout.capacity at hroom
  have hdepth : (machine.memory.layout.stackBase - machine.stackTop).toNat = store.pushed.length := by
    rw [h.layout_eq, htop]
    omega
  have hwrite : machine.memory.writeStack machine.stackTop byte =
      .ok (machine.memory.put store.pushed.length byte) := by
    rw [← hdepth]
    apply Memory.writeStack_eq <;> rw [h.layout_eq] <;> omega
  have haddress : address? (machine.stackTop - 1) = some (machine.stackTop - 1) := by
    rw [address?_eq_some_iff]
    omega
  simp [pushByte, hwrite, haddress]

private theorem run_pushByte_of_le (h : machine.Matches program layout rest store) (register : UInt8) (value : Word)
    (byte : UInt8) (hfull : layout.capacity ≤ store.pushed.length) :
    (pushByte register value byte).run machine =
      .error (.stackWrite register value (.outOfBounds (layout.stackLimit - 1) layout.stackLimit layout.stackBase))
        machine := by
  have hle := h.pushed_le
  have hbase := h.fits.stackLimit_le
  unfold Layout.capacity at hfull hle
  have htop : machine.stackTop = layout.stackLimit - 1 := by
    rw [h.stackTop_eq]
    omega
  have hwrite : machine.memory.writeStack machine.stackTop byte =
      .error (.outOfBounds (layout.stackLimit - 1) layout.stackLimit layout.stackBase) := by
    rw [Memory.writeStack, h.layout_eq, if_neg (by omega), htop]
  simp [pushByte, hwrite]

/-- Bytes go to the stack one after the other until it is full. -/
private theorem run_pushBytes_of_matches (h : machine.Matches program layout rest store) (register : UInt8)
    (value : Word) (bytes : List UInt8) :
    ∃ last, last.Matches program layout rest
        { store with pushed := (store.pushed ++ bytes).take layout.capacity } ∧
      (forM bytes (pushByte register value)).run machine =
        ended (if layout.capacity < store.pushed.length + bytes.length then
          some (.stackWrite register value
            (.outOfBounds (layout.stackLimit - 1) layout.stackLimit layout.stackBase))
          else none) () last := by
  induction bytes generalizing machine store with
  | nil =>
    refine ⟨machine, ?_, ?_⟩
    · rw [List.append_nil, List.take_of_length_le h.pushed_le]
      exact h
    · rw [List.length_nil, if_neg (by have := h.pushed_le; omega)]
      rfl
  | cons byte bytes ih =>
    rw [List.forM_cons]
    by_cases hroom : store.pushed.length < layout.capacity
    · obtain ⟨last, hlast, hrun⟩ := ih (h.withPushed byte hroom)
      refine ⟨last, ?_, ?_⟩
      · rw [List.append_assoc] at hlast
        exact hlast
      · have hlength : (store.pushed ++ [byte]).length + bytes.length =
            store.pushed.length + (byte :: bytes).length := by
          simp only [List.length_append, List.length_cons, List.length_nil]
          omega
        rw [run_bind_of_ok (run_pushByte_of_lt h register value byte hroom), hrun, hlength]
    · have hfull : store.pushed.length = layout.capacity := Nat.le_antisymm h.pushed_le (Nat.le_of_not_lt hroom)
      refine ⟨machine, ?_, ?_⟩
      · rw [← hfull, List.take_left]
        exact h
      · rw [run_bind_of_error (run_pushByte_of_le h register value byte (Nat.le_of_not_lt hroom)),
          List.length_cons, if_pos (by omega)]
        rfl

private theorem run_execute_of_missing (h : machine.Matches program layout rest store) (address : Int)
    {instruction : Instruction} {register : UInt8}
    (hmissing : instruction.missing? store.registers.size = some register) :
    (execute address instruction).run machine =
      .error (.registerOutOfRange instruction.opcode address register store.registers.size) machine := by
  cases instruction with
  | noop => cases hmissing
  | setReg dest value =>
    rw [Instruction.missing?_one rfl] at hmissing
    split at hmissing
    · rename_i hdest
      cases hmissing
      exact run_modifyRegister_of_le h _ address _ hdest
    · cases hmissing
  | push source =>
    rw [Instruction.missing?_one rfl] at hmissing
    split at hmissing
    · rename_i hsource
      cases hmissing
      exact run_bind_of_error (run_readRegister_of_le h _ address hsource)
    · cases hmissing
  | copyReg dest source | xor dest source =>
    rw [Instruction.missing?_two rfl] at hmissing
    split at hmissing
    · rename_i hsource
      cases hmissing
      exact run_bind_of_error (run_readRegister_of_le h _ address hsource)
    · rename_i hsource
      split at hmissing
      · rename_i hdest
        cases hmissing
        refine (run_bind_of_ok (run_readRegister_of_lt h _ address (Nat.lt_of_not_le hsource))).trans ?_
        exact run_modifyRegister_of_le h _ address _ hdest
      · cases hmissing

private theorem run_execute_of_present (h : machine.Matches program layout rest store) (address : Int)
    {instruction : Instruction} (hmissing : instruction.missing? store.registers.size = none) :
    ∃ last, last.Matches program layout rest
        { instruction.perform store with
          pushed := (store.pushed ++ instruction.output store.registers).take layout.capacity } ∧
      (execute address instruction).run machine = ended (instruction.overflow? layout store) () last := by
  have hpushed : (store.pushed ++ []).take layout.capacity = store.pushed := by
    rw [List.append_nil, List.take_of_length_le h.pushed_le]
  cases instruction with
  | noop =>
    refine ⟨machine, ?_, rfl⟩
    simp only [Instruction.output, hpushed]
    exact h
  | setReg dest value =>
    rw [Instruction.missing?_one rfl] at hmissing
    split at hmissing
    · cases hmissing
    · rename_i hdest
      refine ⟨_, ?_, run_modifyRegister_of_lt h _ address _ (Nat.lt_of_not_le hdest)⟩
      simp only [Instruction.output, hpushed]
      exact h.withRegisters _
  | push source =>
    rw [Instruction.missing?_one rfl] at hmissing
    split at hmissing
    · cases hmissing
    · rename_i hsource
      obtain ⟨last, hlast, hrun⟩ := run_pushBytes_of_matches h source
        (store.registers.getD source.toNat 0) (Word.toBytes (store.registers.getD source.toNat 0))
      refine ⟨last, hlast, ?_⟩
      exact (run_bind_of_ok (run_readRegister_of_lt h _ address (Nat.lt_of_not_le hsource))).trans hrun
  | copyReg dest source | xor dest source =>
    rw [Instruction.missing?_two rfl] at hmissing
    split at hmissing
    · cases hmissing
    · rename_i hsource
      split at hmissing
      · cases hmissing
      · rename_i hdest
        refine ⟨_, ?_, (run_bind_of_ok (run_readRegister_of_lt h _ address (Nat.lt_of_not_le hsource))).trans
          (run_modifyRegister_of_lt h _ address _ (Nat.lt_of_not_le hdest))⟩
        simp only [Instruction.output, hpushed]
        exact h.withRegisters _

/-- Executing an instruction has its effect on the store and ends in its fault. -/
theorem run_execute_of_matches (h : machine.Matches program layout rest store) (address : Int)
    (instruction : Instruction) :
    ∃ last, last.Matches program layout rest (instruction.effect layout store) ∧
      (execute address instruction).run machine = ended (instruction.fault? layout address store) () last := by
  cases hmissing : instruction.missing? store.registers.size with
  | some register =>
    have heffect : instruction.effect layout store = store := by rw [Instruction.effect, hmissing]
    have hfault : instruction.fault? layout address store =
        some (.registerOutOfRange instruction.opcode address register store.registers.size) := by
      rw [Instruction.fault?, hmissing]
    rw [heffect, hfault]
    refine ⟨machine, h, ?_⟩
    exact run_execute_of_missing h address hmissing
  | none =>
    have hfault : instruction.fault? layout address store = instruction.overflow? layout store := by
      rw [Instruction.fault?, hmissing]
    have heffect : instruction.effect layout store =
        { instruction.perform store with
          pushed := (store.pushed ++ instruction.output store.registers).take layout.capacity } := by
      rw [Instruction.effect, hmissing]
      rfl
    rw [heffect, hfault]
    exact run_execute_of_present h address hmissing

/-! ### One step -/

theorem run_step_of_matches_nil (h : machine.Matches program layout [] store) :
    step.run machine = .ok .halted machine :=
  run_bind_of_ok (run_fetch_of_matches_nil h)

/-- A step that finds a byte executes what the byte stands for, at the address of the byte. -/
private theorem run_step_of_matches_cons {byte : UInt8} (h : machine.Matches program layout (byte :: bytes) store) :
    ∃ behind, behind.Matches program layout bytes store ∧ step.run machine =
      (dispatch (layout.instructionsEnd - (bytes.length + 1 : Nat)) byte >>= fun _ => pure .executed).run behind := by
  refine ⟨_, h.fetched, ?_⟩
  have hpointer := h.instructionPointer_eq
  rw [List.length_cons] at hpointer
  rw [← hpointer]
  exact run_bind_of_ok (run_fetch_of_matches h)

theorem run_step_of_unassigned {byte : UInt8} (h : machine.Matches program layout (byte :: bytes) store)
    (hop : Opcode.ofByte? byte = none) :
    ∃ last, last.Matches program layout bytes store ∧
      step.run machine = .error (.invalidOpcode byte (layout.instructionsEnd - (bytes.length + 1 : Nat))) last := by
  obtain ⟨behind, hbehind, hrun⟩ := run_step_of_matches_cons h
  refine ⟨behind, hbehind, ?_⟩
  rw [hrun, dispatch, hop]
  rfl

theorem run_step_of_cutShort {byte : UInt8} {op : Opcode} (h : machine.Matches program layout (byte :: bytes) store)
    (hop : Opcode.ofByte? byte = some op) (hread : Instruction.ofOperands? op bytes = none) :
    ∃ last, last.Matches program layout [] store ∧
      step.run machine = .error (.truncatedOperand op (layout.instructionsEnd - (bytes.length + 1 : Nat))) last := by
  obtain ⟨behind, hbehind, hrun⟩ := run_step_of_matches_cons h
  have hfetch := fetches_fetchInstruction op (layout.instructionsEnd - (bytes.length + 1 : Nat)) hbehind
  rw [hread] at hfetch
  obtain ⟨last, hrunFetch, hlast⟩ := hfetch
  refine ⟨last, hlast, ?_⟩
  rw [hrun, dispatch, hop]
  exact run_bind_of_error (run_bind_of_error hrunFetch)

/-- A step has the effect of the instruction and moves behind it, whether the instruction completes or not. -/
theorem run_step_of_instruction {byte : UInt8} {op : Opcode} {instruction : Instruction}
    (h : machine.Matches program layout (byte :: bytes) store) (hop : Opcode.ofByte? byte = some op)
    (hread : Instruction.ofOperands? op bytes = some (instruction, rest)) :
    ∃ last, last.Matches program layout rest (instruction.effect layout store) ∧ step.run machine =
      ended (instruction.fault? layout (layout.instructionsEnd - (bytes.length + 1 : Nat)) store) .executed last := by
  obtain ⟨behind, hbehind, hrun⟩ := run_step_of_matches_cons h
  have hfetch := fetches_fetchInstruction op (layout.instructionsEnd - (bytes.length + 1 : Nat)) hbehind
  rw [hread] at hfetch
  obtain ⟨middle, hrunFetch, hmiddle⟩ := hfetch
  obtain ⟨last, hlast, hrunExecute⟩ := run_execute_of_matches hmiddle
    (layout.instructionsEnd - (bytes.length + 1 : Nat)) instruction
  refine ⟨last, hlast, ?_⟩
  rw [hrun, dispatch, hop]
  cases hfault : instruction.fault? layout (layout.instructionsEnd - (bytes.length + 1 : Nat)) store with
  | none =>
    rw [hfault] at hrunExecute
    exact run_bind_of_ok ((run_bind_of_ok hrunFetch).trans hrunExecute)
  | some fault =>
    rw [hfault] at hrunExecute
    exact run_bind_of_error ((run_bind_of_ok hrunFetch).trans hrunExecute)

end Execution

end RegisterMachine
