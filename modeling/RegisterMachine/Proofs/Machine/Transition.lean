import RegisterMachine.Proofs.Machine.Simulation

/-!
# Transitions

What one step does, as a function of the bytes that are still to fetch and of the store.  A machine that matches the
two steps as their transition says, whether the step faults or not (`Machine.Matches.run_step`), so whatever holds of
every transition holds of every step.
-/

namespace RegisterMachine

open Execution

/-- The bytes and the store that a step leaves, and the fault that it ends in. -/
structure Transition where
  rest : List UInt8
  store : Store
  fault? : Option Fault
deriving DecidableEq, Repr

/-- The transition of a store with the given bytes still to fetch.  There is none where all are fetched. -/
def Store.transition? (layout : Layout) (store : Store) : List UInt8 → Option Transition
  | [] => none
  | byte :: bytes =>
    let address := layout.instructionsEnd - (bytes.length + 1 : Nat)
    match Opcode.ofByte? byte with
    | none => some ⟨bytes, store, some (.invalidOpcode byte address)⟩
    | some op =>
      match Instruction.ofOperands? op bytes with
      | none => some ⟨[], store, some (.truncatedOperand op address)⟩
      | some (instruction, rest) =>
        some ⟨rest, instruction.effect layout store, instruction.fault? layout address store⟩

variable {program : Array UInt8} {layout : Layout} {machine : Machine} {store : Store} {bytes rest : List UInt8}
variable {byte : UInt8} {op : Opcode}

namespace Store

theorem transition?_of_unassigned (layout : Layout) (store : Store) (hop : Opcode.ofByte? byte = none)
    (bytes : List UInt8) :
    store.transition? layout (byte :: bytes) =
      some ⟨bytes, store, some (.invalidOpcode byte (layout.instructionsEnd - (bytes.length + 1 : Nat)))⟩ := by
  rw [transition?, hop]

theorem transition?_of_cutShort (layout : Layout) (store : Store) (hop : Opcode.ofByte? byte = some op)
    (hread : Instruction.ofOperands? op bytes = none) :
    store.transition? layout (byte :: bytes) =
      some ⟨[], store, some (.truncatedOperand op (layout.instructionsEnd - (bytes.length + 1 : Nat)))⟩ := by
  rw [transition?, hop]
  dsimp only
  rw [hread]

theorem transition?_of_instruction {instruction : Instruction} (layout : Layout) (store : Store)
    (hop : Opcode.ofByte? byte = some op) (hread : Instruction.ofOperands? op bytes = some (instruction, rest)) :
    store.transition? layout (byte :: bytes) =
      some ⟨rest, instruction.effect layout store,
        instruction.fault? layout (layout.instructionsEnd - (bytes.length + 1 : Nat)) store⟩ := by
  rw [transition?, hop]
  dsimp only
  rw [hread]

theorem transition?_eq_none_iff : store.transition? layout rest = none ↔ rest = [] := by
  cases rest with
  | nil => exact iff_of_true rfl rfl
  | cons byte bytes =>
    refine iff_of_false ?_ (List.cons_ne_nil _ _)
    unfold transition?
    dsimp only
    split
    · exact Option.some_ne_none _
    · split <;> exact Option.some_ne_none _

end Store

namespace Machine.Matches

/-- A machine that has fetched everything halts, and any other makes the transition. -/
theorem run_step (h : machine.Matches program layout rest store) :
    match store.transition? layout rest with
    | none => step.run machine = .ok .halted machine
    | some next => ∃ last, step.run machine = ended next.fault? .executed last ∧
        last.Matches program layout next.rest next.store := by
  cases rest using Listing.ofBytes.induct with
  | case1 => exact run_step_of_matches_nil h
  | case2 byte bytes hop =>
    obtain ⟨last, hlast, hrun⟩ := run_step_of_unassigned h hop
    rw [Store.transition?_of_unassigned layout store hop]
    exact ⟨last, hrun, hlast⟩
  | case3 byte bytes op hop hread =>
    obtain ⟨last, hlast, hrun⟩ := run_step_of_cutShort h hop hread
    rw [Store.transition?_of_cutShort layout store hop hread]
    exact ⟨last, hrun, hlast⟩
  | case4 byte bytes op hop instruction left hread =>
    obtain ⟨last, hlast, hrun⟩ := run_step_of_instruction h hop hread
    rw [Store.transition?_of_instruction layout store hop hread]
    exact ⟨last, hrun, hlast⟩

/-- What a step leaves behind. -/
theorem after_step (h : machine.Matches program layout rest store) :
    match store.transition? layout rest with
    | none => step.after machine = machine
    | some next => (step.after machine).Matches program layout next.rest next.store := by
  have hrun := h.run_step
  cases hnext : store.transition? layout rest with
  | none =>
    rw [hnext] at hrun
    exact after_of_ok hrun
  | some next =>
    rw [hnext] at hrun
    obtain ⟨last, hrun, hlast⟩ := hrun
    have hafter : step.after machine = last := by
      rw [after, hrun]
      cases next.fault? <;> rfl
    dsimp only
    rw [hafter]
    exact hlast

end Machine.Matches

end RegisterMachine
