import RegisterMachine.Machine.Run
import RegisterMachine.Proofs.Machine.Simulation

/-!
# Runs and listings

A run fetches and executes one instruction after the other, while a listing reads all of them ahead.  A run does to
the registers and to the stack what executing the listing does, and ends in the same fault or in none
(`run_runToHalt_of_matches`); it executes exactly the instructions that complete (`stepMany?_of_matches`).  For the
machine built for a program this says where a run stops and why (`run_follows_listing`).
-/

namespace RegisterMachine

open Execution

/-- The machine after the given number of steps, if every one of them executes an instruction. -/
def Machine.stepMany? : Nat → Machine → Option Machine
  | 0, machine => some machine
  | count + 1, machine =>
    match step.run machine with
    | .ok .executed next => next.stepMany? count
    | _ => none

/-- A machine is built exactly if it has few enough registers and its memory can be laid out. -/
theorem Machine.build_eq_ok_iff {program : Array UInt8} {config : Config} {machine : Machine} :
    Machine.build program config = .ok machine ↔
      config.registerCount.toNat ≤ maxRegisterCount ∧
        ∃ layout, Layout.ofConfig program.size config = .ok layout ∧ machine = {
          memory := { layout, program }
          registers := Array.replicate config.registerCount.toNat 0
          instructionPointer := layout.instructionsStart
          stackTop := layout.stackBase } := by
  unfold Machine.build Memory.ofProgram
  by_cases hcount : maxRegisterCount < config.registerCount.toNat
  · simp [hcount, Nat.not_le_of_lt hcount]
  · cases hlayout : Layout.ofConfig program.size config with
    | error cause => simp [hcount, Except.map]
    | ok layout => simp [hcount, Except.map, Nat.le_of_not_lt hcount, eq_comm]

/-- A machine that was just built has the whole program to fetch and holds nothing. -/
theorem Machine.matches_of_build {program : Array UInt8} {config : Config} {machine : Machine}
    (h : Machine.build program config = .ok machine) :
    machine.Matches program machine.memory.layout program.toList (.initial config.registerCount.toNat) := by
  obtain ⟨-, layout, hlayout, rfl⟩ := Machine.build_eq_ok_iff.1 h
  have hfits := Layout.fits_of_ofConfig hlayout
  exact {
    program_eq := rfl
    layout_eq := rfl
    fits := hfits
    suffix := List.suffix_refl _
    instructionPointer_eq := by
      have hend := hfits.instructionsEnd_eq
      simp only [Array.length_toList]
      omega
    registers_eq := rfl
    stackTop_eq := by simp [Store.initial]
    pushed_le := Nat.zero_le _
    heap_eq := rfl
    stack_eq := rfl }

/-- The stack of a machine that was built holds one byte more than its size says. -/
theorem Machine.capacity_of_build {program : Array UInt8} {config : Config} {machine : Machine}
    (h : Machine.build program config = .ok machine) :
    machine.memory.layout.capacity = config.stackSize.toNat + 1 := by
  obtain ⟨-, layout, hlayout, rfl⟩ := Machine.build_eq_ok_iff.1 h
  obtain ⟨-, rfl⟩ := Layout.ofConfig_eq_ok_iff.1 hlayout
  exact Layout.capacity_placed program.size config

variable {program : Array UInt8} {layout : Layout} {machine : Machine} {store : Store} {rest : List UInt8}

/-- Behind the first instruction stands the next one. -/
private theorem address_add_length (layout : Layout) (instruction : Instruction) (rest : List UInt8) :
    layout.instructionsEnd - ((instruction.operands ++ rest).length + 1 : Nat) + instruction.toBytes.length =
      layout.instructionsEnd - rest.length := by
  simp only [Instruction.toBytes, List.length_append, List.length_cons]
  omega

/-- A run does what executing the listing of the bytes to fetch does, and fetches those that the listing reaches. -/
theorem exists_run_runToHalt_of_matches (h : machine.Matches program layout rest store) :
    let account := (Listing.ofBytes rest).execute layout (layout.instructionsEnd - rest.length) store
    ∃ last, last.Matches program layout (rest.drop ((Listing.ofBytes rest).reach rest.length account.completed))
        account.store ∧
      runToHalt.run machine = ended account.fault () last := by
  induction rest using Listing.ofBytes.induct generalizing machine store with
  | case1 =>
    refine ⟨machine, ?_, ?_⟩
    · rw [Listing.ofBytes_nil, List.drop_nil]
      exact h
    · rw [Listing.ofBytes_nil, run_runToHalt, run_step_of_matches_nil h]
      rfl
  | case2 byte bytes hop =>
    obtain ⟨last, hlast, hrun⟩ := run_step_of_unassigned h hop
    rw [Listing.ofBytes_of_unassigned hop, run_runToHalt, hrun]
    exact ⟨last, hlast, rfl⟩
  | case3 byte bytes op hop hread =>
    obtain ⟨last, hlast, hrun⟩ := run_step_of_cutShort h hop hread
    have hdrop : (byte :: bytes).drop (Listing.reach (byte :: bytes).length ⟨[], .cutShort op⟩ 0) = [] :=
      List.drop_length
    rw [Listing.ofBytes_of_cutShort hop hread, run_runToHalt, hrun]
    refine ⟨last, ?_, rfl⟩
    rw [Listing.execute, Account.ofInstructions, hdrop]
    exact hlast
  | case4 byte bytes op hop instruction rest hread ih =>
    obtain ⟨next, hnext, hrun⟩ := run_step_of_instruction h hop hread
    rw [Listing.ofBytes_of_instruction hop hread, run_runToHalt, hrun]
    obtain ⟨rfl, rfl⟩ := Instruction.eq_of_ofOperands? hread
    have hbytes : byte :: (instruction.operands ++ rest) = instruction.toBytes ++ rest := by
      rw [Instruction.toBytes, Opcode.toByte_of_ofByte? hop, List.cons_append]
    rw [Listing.execute, List.length_cons]
    cases hfault : instruction.fault? layout
        (layout.instructionsEnd - ((instruction.operands ++ rest).length + 1 : Nat)) store with
    | some fault =>
      rw [Account.ofInstructions_of_fault hfault, hbytes]
      refine ⟨next, ?_, rfl⟩
      rw [Listing.reach, List.getElem?_cons_zero]
      dsimp only
      rw [Listing.offset, List.take_zero, List.flatMap_nil, List.length_nil, Nat.zero_add, List.drop_left]
      exact hnext
    | none =>
      obtain ⟨last, hlast, hrun'⟩ := ih hnext
      rw [Account.ofInstructions_of_completes hfault, address_add_length, ← List.length_cons, hbytes,
        List.length_append]
      dsimp only
      rw [Listing.reach_cons_succ, ← List.drop_drop, List.drop_left]
      exact ⟨last, hlast, hrun'⟩

theorem run_runToHalt_of_matches (h : machine.Matches program layout rest store) :
    ∃ last left, last.Matches program layout left
        ((Listing.ofBytes rest).execute layout (layout.instructionsEnd - rest.length) store).store ∧
      runToHalt.run machine =
        ended ((Listing.ofBytes rest).execute layout (layout.instructionsEnd - rest.length) store).fault () last :=
  have ⟨last, hlast, hrun⟩ := exists_run_runToHalt_of_matches h
  ⟨last, _, hlast, hrun⟩

/-- As many steps execute an instruction as instructions of the listing complete, and behind them the machine holds
what these instructions perform. -/
theorem stepMany?_of_matches (h : machine.Matches program layout rest store) (count : Nat) :
    if count ≤ ((Listing.ofBytes rest).execute layout (layout.instructionsEnd - rest.length) store).completed then
      ∃ next left, machine.stepMany? count = some next ∧
        next.Matches program layout left
          (((Listing.ofBytes rest).instructions.take count).foldl Instruction.perform store)
    else machine.stepMany? count = none := by
  induction count generalizing machine store rest with
  | zero =>
    rw [if_pos (Nat.zero_le _)]
    exact ⟨machine, rest, rfl, h⟩
  | succ count ih =>
    -- Only a whole instruction in front that completes leaves steps to count.
    cases rest using Listing.ofBytes.induct with
    | case1 =>
      rw [Listing.ofBytes_nil, Machine.stepMany?, run_step_of_matches_nil h]
      exact (if_neg (Nat.not_succ_le_zero count)).mpr rfl
    | case2 byte bytes hop =>
      obtain ⟨last, -, hrun⟩ := run_step_of_unassigned h hop
      rw [Listing.ofBytes_of_unassigned hop, Machine.stepMany?, hrun]
      exact (if_neg (Nat.not_succ_le_zero count)).mpr rfl
    | case3 byte bytes op hop hread =>
      obtain ⟨last, -, hrun⟩ := run_step_of_cutShort h hop hread
      rw [Listing.ofBytes_of_cutShort hop hread, Machine.stepMany?, hrun]
      exact (if_neg (Nat.not_succ_le_zero count)).mpr rfl
    | case4 byte bytes op hop instruction rest hread =>
      obtain ⟨next, hnext, hrun⟩ := run_step_of_instruction h hop hread
      rw [Listing.ofBytes_of_instruction hop hread, Machine.stepMany?, hrun]
      obtain ⟨rfl, rfl⟩ := Instruction.eq_of_ofOperands? hread
      rw [Listing.execute, List.length_cons]
      cases hfault : instruction.fault? layout
          (layout.instructionsEnd - ((instruction.operands ++ rest).length + 1 : Nat)) store with
      | some fault =>
        rw [Account.ofInstructions_of_fault hfault]
        exact (if_neg (Nat.not_succ_le_zero count)).mpr rfl
      | none =>
        rw [Account.ofInstructions_of_completes hfault, address_add_length, List.take_succ_cons, List.foldl_cons,
          ← Instruction.effect_of_completes h.pushed_le hfault]
        simp only [Nat.add_le_add_iff_right]
        exact ih hnext

/-- A machine runs its program as the listing of the program is executed.  The program is the bytes of the listing.
Steps execute the instructions in their order, each of them with its effect on registers and stack, and a run stops
behind the last, cleanly or at a bad ending, or at the first instruction that does not complete, whose fault it
reports. -/
theorem run_follows_listing {program : Array UInt8} {config : Config} {machine : Machine}
    (h : Machine.build program config = .ok machine) :
    let listing := Listing.ofBytes program.toList
    let start := Store.initial config.registerCount.toNat
    (∃ tail, listing.ending.Fits tail ∧
      program.toList = listing.instructions.flatMap Instruction.toBytes ++ tail) ∧
    ∃ completed ≤ listing.instructions.length,
      (∀ count, (∃ next, machine.stepMany? count = some next) ↔ count ≤ completed) ∧
      (∀ count next, machine.stepMany? count = some next →
        next.registers = (listing.instructions.take count).foldl
          (fun registers instruction => instruction.update registers) (Array.replicate config.registerCount.toNat 0) ∧
        next.Holds ((listing.instructions.take count).foldl Instruction.perform start)) ∧
      (∀ count < completed, listing.stop? machine.memory.layout machine.instructionBase start count = none) ∧
      (completed < listing.instructions.length →
        listing.stop? machine.memory.layout machine.instructionBase start completed ≠ none) ∧
      ∃ last, runToHalt.run machine =
          ended (listing.stop? machine.memory.layout machine.instructionBase start completed) () last ∧
        last.registers = (listing.instructions.take completed).foldl
          (fun registers instruction => instruction.update registers)
          (Array.replicate config.registerCount.toNat 0) := by
  intro listing start
  have hmatch := Machine.matches_of_build h
  have hbase : machine.memory.layout.instructionsEnd - program.toList.length = machine.instructionBase := by
    have hend := hmatch.fits.instructionsEnd_eq
    rw [Array.length_toList]
    unfold Machine.instructionBase
    omega
  have hsteps := stepMany?_of_matches hmatch
  obtain ⟨last, left, hlast, hrun⟩ := run_runToHalt_of_matches hmatch
  rw [hbase] at hsteps hlast hrun
  obtain ⟨hle, hbefore, hstop, hne, hregisters⟩ :=
    Listing.execute_stops hmatch.pushed_le machine.instructionBase listing
  refine ⟨Listing.exists_tail_ofBytes _, _, hle, ?_, ?_, hbefore, ?_, last, ?_, ?_⟩
  · intro count
    have hcount := hsteps count
    split at hcount
    · rename_i hcompleted
      obtain ⟨next, left, hnext, -⟩ := hcount
      exact ⟨fun _ => hcompleted, fun _ => ⟨next, hnext⟩⟩
    · rename_i hcompleted
      refine ⟨fun ⟨next, hnext⟩ => ?_, fun hle => absurd hle hcompleted⟩
      rw [hcount] at hnext
      cases hnext
  · intro count next hnext
    have hcount := hsteps count
    split at hcount
    · obtain ⟨next', left, hnext', hmatch'⟩ := hcount
      rw [hnext] at hnext'
      cases hnext'
      refine ⟨?_, hmatch'.holds⟩
      rw [hmatch'.registers_eq, Instruction.registers_foldl_perform]
      rfl
    · rw [hcount] at hnext
      cases hnext
  · rw [← hstop]
    exact hne
  · rw [hrun, ← hstop]
  · rw [hlast.registers_eq, hregisters, Instruction.registers_foldl_perform]
    rfl

/-- A word is loaded and then pushed to a stack of three bytes, which cannot hold it. -/
theorem run_follows_listing_full_stack :
    ∃ machine last, Machine.build #[1, 0, 7, 0, 0, 0, 8, 0, 4] { stackSize := 2 } = .ok machine ∧
      runToHalt.run machine = .error (.stackWrite 0 7 (.outOfBounds 2147482620 2147482621 2147482623)) last ∧
      last.registers = #[7, 0, 0, 0, 0, 0, 0, 0] := by
  obtain ⟨machine, h⟩ : ∃ machine, Machine.build #[1, 0, 7, 0, 0, 0, 8, 0, 4] { stackSize := 2 } = .ok machine :=
    ⟨_, rfl⟩
  have hlisting : Listing.ofBytes [1, 0, 7, 0, 0, 0, 8, 0, 4] = ⟨[.setReg 0 7, .push 0], .unassigned 4⟩ := by
    decide +kernel
  have hlayout : machine.memory.layout = ⟨1024, 1033, 1133, 2147482623, 2147482621⟩ := by
    cases h
    rfl
  obtain ⟨-, completed, hle, -, -, hbefore, hne, last, hrun, hregisters⟩ := run_follows_listing h
  simp only [hlisting, hlayout, Machine.instructionBase] at hle hbefore hne hrun hregisters
  -- The first instruction completes and the second one does not.
  have hcompleted : completed = 1 := by
    rcases completed with _ | _ | completed
    · exact absurd (by decide) (hne (by decide))
    · rfl
    · exact absurd (hbefore 1 (by omega)) (by decide)
  subst hcompleted
  exact ⟨machine, last, h, hrun, hregisters⟩

end RegisterMachine
