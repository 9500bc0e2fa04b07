import Mathlib.Control.Monad.Basic
import RegisterMachine.Proofs.Machine.Mirroring
import RegisterMachine.Proofs.Machine.Refinement
import RegisterMachine.Proofs.Machine.Sampling
import RegisterMachine.Proofs.Machine.Transition

/-!
# Relocation

The same program in two layouts, with stacks of the same size.  Where the regions lie decides nothing but addresses: a
transition in one layout is that in the other with a fault that names other addresses (`Store.transition?_of_moved`).
Two machines that differ in their layouts therefore mirror each other, whatever is asked of them, and show the same
bytes at the same distances from the base of the stack (`Machine.afterCalls_of_moved`).
-/

namespace RegisterMachine

open Execution

/-- The error with all addresses moved. -/
def MemoryError.moved (distance : Int) : MemoryError → MemoryError
  | outOfBounds address lowest highest => outOfBounds (address + distance) (lowest + distance) (highest + distance)
  | unmapped address => unmapped (address + distance)
  | readOnly address => readOnly (address + distance)
  | layout => layout

/-- The fault with the addresses of instructions and those of the stack moved.  Those left alone name no address or
end no instruction. -/
def Fault.moved (code stack : Int) : Fault → Fault
  | truncatedOperand op address => truncatedOperand op (address + code)
  | registerOutOfRange op address register count => registerOutOfRange op (address + code) register count
  | invalidOpcode byte address => invalidOpcode byte (address + code)
  | stackWrite register value cause => stackWrite register value (cause.moved stack)
  | tooManyRegisters count => tooManyRegisters count
  | memory cause => memory cause
  | addressOverflow => addressOverflow

/-- The second layout has the program and the stack of the first one at other addresses. -/
structure Layout.Moved (code stack : Int) (one two : Layout) : Prop where
  instructionsEnd_eq : two.instructionsEnd = one.instructionsEnd + code
  stackBase_eq : two.stackBase = one.stackBase + stack
  stackLimit_eq : two.stackLimit = one.stackLimit + stack

variable {code stack : Int} {one two : Layout}

theorem Layout.Moved.capacity_eq (h : one.Moved code stack two) : two.capacity = one.capacity := by
  unfold capacity
  rw [h.stackBase_eq, h.stackLimit_eq]
  omega

namespace Instruction

theorem effect_of_moved (h : one.Moved code stack two) (store : Store) (instruction : Instruction) :
    instruction.effect two store = instruction.effect one store := by
  unfold effect
  rw [h.capacity_eq]

theorem overflow?_of_moved (h : one.Moved code stack two) (store : Store) (instruction : Instruction) :
    instruction.overflow? two store = (instruction.overflow? one store).map (Fault.moved code stack) := by
  cases instruction with
  | push source =>
    unfold overflow?
    dsimp only
    rw [h.capacity_eq]
    split
    · simp only [Option.map_some, Fault.moved, MemoryError.moved, h.stackBase_eq, h.stackLimit_eq]
      congr 3
      omega
    · rfl
  | _ => rfl

theorem fault?_of_moved (h : one.Moved code stack two) (address : Int) (store : Store) (instruction : Instruction) :
    instruction.fault? two (address + code) store =
      (instruction.fault? one address store).map (Fault.moved code stack) := by
  unfold fault?
  cases instruction.missing? store.registers.size with
  | some register => rfl
  | none => exact overflow?_of_moved h store instruction

end Instruction

/-- The transition with the addresses in its fault moved. -/
def Transition.moved (code stack : Int) (next : Transition) : Transition :=
  { next with fault? := next.fault?.map (Fault.moved code stack) }

theorem Store.transition?_of_moved (h : one.Moved code stack two) (store : Store) (rest : List UInt8) :
    store.transition? two rest = (store.transition? one rest).map (Transition.moved code stack) := by
  have haddress (bytes : List UInt8) : two.instructionsEnd - (bytes.length + 1 : Nat) =
      one.instructionsEnd - (bytes.length + 1 : Nat) + code := by
    rw [h.instructionsEnd_eq]
    omega
  cases rest using Listing.ofBytes.induct with
  | case1 => rfl
  | case2 byte bytes hop =>
    rw [transition?_of_unassigned two store hop, transition?_of_unassigned one store hop, haddress]
    rfl
  | case3 byte bytes op hop hread =>
    rw [transition?_of_cutShort two store hop hread, transition?_of_cutShort one store hop hread, haddress]
    rfl
  | case4 byte bytes op hop instruction rest hread =>
    rw [transition?_of_instruction two store hop hread, transition?_of_instruction one store hop hread, haddress,
      Instruction.effect_of_moved h, Instruction.fault?_of_moved h]
    rfl

/-- Two machines that run two programs in two layouts, have the same still to fetch and hold the same. -/
def Machine.Abreast (program other : Array UInt8) (one two : Layout) (here there : Machine) : Prop :=
  ∃ rest store, here.Matches program one rest store ∧ there.Matches other two rest store

namespace Machine.Abreast

variable {program other : Array UInt8} {here there : Machine}

theorem isHalted_eq (h : Abreast program other one two here there) : here.isHalted = there.isHalted := by
  obtain ⟨rest, store, hhere, hthere⟩ := h
  rw [hhere.isHalted_eq, hthere.isHalted_eq]

theorem registers_eq (h : Abreast program other one two here there) : there.registers = here.registers := by
  obtain ⟨rest, store, hhere, hthere⟩ := h
  rw [hthere.registers_eq, hhere.registers_eq]

theorem instructionPointer_eq (hmoved : one.Moved code stack two) (h : Abreast program other one two here there) :
    there.instructionPointer = here.instructionPointer + code := by
  obtain ⟨rest, store, hhere, hthere⟩ := h
  rw [hthere.instructionPointer_eq, hhere.instructionPointer_eq, hmoved.instructionsEnd_eq]
  omega

theorem stackTop_eq (hmoved : one.Moved code stack two) (h : Abreast program other one two here there) :
    there.stackTop = here.stackTop + stack := by
  obtain ⟨rest, store, hhere, hthere⟩ := h
  rw [hthere.stackTop_eq, hhere.stackTop_eq, hmoved.stackBase_eq]
  omega

/-- What is behind has no part in a step. -/
theorem mirrors_step (h : one.Moved code stack two) :
    Mirrors (Abreast program other one two) (Fault.moved code stack) step := by
  rintro here there ⟨rest, store, hhere, hthere⟩
  have hone := hhere.run_step
  have htwo := hthere.run_step
  rw [Store.transition?_of_moved h] at htwo
  cases hnext : store.transition? one rest with
  | none =>
    rw [hnext] at hone htwo
    rw [hone, htwo]
    exact .ok ⟨rest, store, hhere, hthere⟩
  | some next =>
    rw [hnext] at hone htwo
    obtain ⟨last, hrun, hlast⟩ := hone
    obtain ⟨final, hrun', hfinal⟩ := htwo
    rw [hrun, hrun', Transition.moved]
    cases next.fault? with
    | none => exact .ok ⟨next.rest, next.store, hlast, hfinal⟩
    | some fault => exact .error ⟨next.rest, next.store, hlast, hfinal⟩

/-- The stacks hold the same. -/
theorem read_stack_iff (hmoved : one.Moved code stack two) (h : Abreast program other one two here there) (depth : Nat)
    (hdepth : depth < one.capacity) (byte : UInt8) :
    there.memory.read (two.stackBase - depth) = .ok byte ↔ here.memory.read (one.stackBase - depth) = .ok byte := by
  obtain ⟨rest, store, hhere, hthere⟩ := h
  rw [hhere.read_stack hdepth, hthere.read_stack (hmoved.capacity_eq ▸ hdepth)]
  cases store.pushed[depth]? with
  | none => exact iff_of_false nofun nofun
  | some found => exact Iff.rfl

/-- The samples are the same but for their addresses. -/
theorem map_samples (hmoved : one.Moved code stack two) (h : Abreast program other one two here there) :
    there.snapshot.samples.map (fun sample => (sample.offset, sample.address.toInt, sample.value)) =
      here.snapshot.samples.map (fun sample => (sample.offset, sample.address.toInt + stack, sample.value)) := by
  have htop := h.stackTop_eq hmoved
  obtain ⟨rest, store, hhere, hthere⟩ := h
  unfold snapshot
  rw [List.map_filterMap, List.map_filterMap]
  congr 1
  funext offset
  have hone := congrArg (Option.map fun sample => (sample.1, sample.2.1 + stack, sample.2.2))
    (hhere.map_sample? offset)
  rw [hthere.map_sample?, htop]
  rw [Option.map_map] at hone
  refine Eq.trans ?_ hone.symm
  split
  · rw [Option.map_map]
    congr 1
    funext value
    simp only [Function.comp_apply, Prod.mk.injEq, true_and, and_true]
    omega
  · rfl

end Machine.Abreast

namespace Machine

/-- Two machines that are built for the same program, with stacks of the same size and as many registers, differ in
their layouts only. -/
theorem moved_of_build {program : Array UInt8} {first second : Config} {here there : Machine}
    (hcount : first.registerCount = second.registerCount) (hsize : first.stackSize = second.stackSize)
    (hhere : Machine.build program first = .ok here) (hthere : Machine.build program second = .ok there) :
    here.memory.layout.Moved (there.memory.layout.instructionsStart - here.memory.layout.instructionsStart)
        (there.memory.layout.stackBase - here.memory.layout.stackBase) there.memory.layout ∧
      Abreast program program here.memory.layout there.memory.layout here there := by
  have hone := matches_of_build hhere
  have htwo := matches_of_build hthere
  rw [← hcount] at htwo
  refine ⟨⟨?_, by omega, ?_⟩, _, _, hone, htwo⟩
  · have hend := hone.fits.instructionsEnd_eq
    have hend' := htwo.fits.instructionsEnd_eq
    omega
  · obtain ⟨-, layout, hlayout, rfl⟩ := build_eq_ok_iff.1 hhere
    obtain ⟨-, layout', hlayout', rfl⟩ := build_eq_ok_iff.1 hthere
    obtain ⟨-, rfl⟩ := Layout.ofConfig_eq_ok_iff.1 hlayout
    obtain ⟨-, rfl⟩ := Layout.ofConfig_eq_ok_iff.1 hlayout'
    simp only [Layout.placed, hsize]
    omega

/-- Where the regions lie is invisible to a program.  Two machines that run it with stacks of the same size and as many
registers, asked the same, hold the same and are at the same place, counted from the start of the program and from the
base of the stack.  Both answer every call alike, and snapshots show the same, but for the addresses. -/
theorem afterCalls_of_moved {program : Array UInt8} {first second : Config} {one two : Machine}
    (hcount : first.registerCount = second.registerCount) (hsize : first.stackSize = second.stackSize)
    (hone : Machine.build program first = .ok one) (htwo : Machine.build program second = .ok two)
    (calls : List Call) :
    let code := two.memory.layout.instructionsStart - one.memory.layout.instructionsStart
    let stack := two.memory.layout.stackBase - one.memory.layout.stackBase
    let here := one.afterCalls calls
    let there := two.afterCalls calls
    two.answers calls = (one.answers calls).map (Except.mapError (Fault.moved code stack)) ∧
    there.registers = here.registers ∧
    there.instructionPointer - two.memory.layout.instructionsStart =
      here.instructionPointer - one.memory.layout.instructionsStart ∧
    there.stackTop - two.memory.layout.stackBase = here.stackTop - one.memory.layout.stackBase ∧
    (∀ depth : Nat, depth ≤ first.stackSize.toNat → ∀ byte,
      there.memory.read (two.memory.layout.stackBase - depth) = .ok byte ↔
        here.memory.read (one.memory.layout.stackBase - depth) = .ok byte) ∧
    there.snapshot.registers = here.snapshot.registers ∧
    there.snapshot.instructionPointer.toInt = here.snapshot.instructionPointer.toInt + code ∧
    there.snapshot.stackBase.toInt = here.snapshot.stackBase.toInt + stack ∧
    there.snapshot.stackTop.toInt = here.snapshot.stackTop.toInt + stack ∧
    there.snapshot.samples.map (fun sample => (sample.offset, sample.address.toInt, sample.value)) =
      here.snapshot.samples.map (fun sample => (sample.offset, sample.address.toInt + stack, sample.value)) := by
  intro code stack here there
  obtain ⟨hmoved, hstart⟩ := moved_of_build hcount hsize hone htwo
  obtain ⟨hanswers, hlast⟩ := answers_of_mirrors
    (Mirrors.action (Abreast.mirrors_step hmoved) fun _ _ => Abreast.isHalted_eq) hstart calls
  have hsample := hlast.map_samples hmoved
  have hbytes (depth : Nat) (hdepth : depth ≤ first.stackSize.toNat) :=
    hlast.read_stack_iff hmoved depth (by
      rw [capacity_of_build hone]
      exact Nat.lt_succ_of_le hdepth)
  have hregisters : there.registers = here.registers := hlast.registers_eq
  have hmovedPointer : there.instructionPointer = here.instructionPointer + code := hlast.instructionPointer_eq hmoved
  have hmovedTop : there.stackTop = here.stackTop + stack := hlast.stackTop_eq hmoved
  obtain ⟨rest, store, hhere, hthere⟩ := hlast
  obtain ⟨hpointer, hbase, htop⟩ := hhere.toInt_snapshot
  obtain ⟨hpointer', hbase', htop'⟩ := hthere.toInt_snapshot
  refine ⟨hanswers, hregisters, by omega, by omega, hbytes, congrArg Array.toList hregisters, ?_, ?_, ?_, hsample⟩
  · rw [hpointer', hpointer, hmovedPointer]
  · rw [hbase', hbase, hmoved.stackBase_eq]
  · rw [htop', htop, hmovedTop]

/-- A push to a full stack and then a byte that is no instruction, with the heap right behind the program and far from
it. -/
theorem afterCalls_of_moved_full_stack :
    ∃ one two, Machine.build #[1, 0, 1, 2, 3, 4, 8, 0, 8, 0, 9] { stackSize := 5 } = .ok one ∧
      Machine.build #[1, 0, 1, 2, 3, 4, 8, 0, 8, 0, 9]
        { stackSize := 5, instructionOffset := 7, heapGap := 0, stackOffset := 3 } = .ok two ∧
      one.answers [.runFor 4, .step] =
        [.error (.stackWrite 0 67305985 (.outOfBounds 2147482617 2147482618 2147482623)),
          .error (.invalidOpcode 9 1034)] ∧
      two.answers [.runFor 4, .step] =
        [.error (.stackWrite 0 67305985 (.outOfBounds 2147482614 2147482615 2147482620)),
          .error (.invalidOpcode 9 1041)] := by
  obtain ⟨one, hone⟩ : ∃ one,
      Machine.build #[1, 0, 1, 2, 3, 4, 8, 0, 8, 0, 9] { stackSize := 5 } = .ok one := ⟨_, rfl⟩
  obtain ⟨two, htwo⟩ : ∃ two, Machine.build #[1, 0, 1, 2, 3, 4, 8, 0, 8, 0, 9]
      { stackSize := 5, instructionOffset := 7, heapGap := 0, stackOffset := 3 } = .ok two := ⟨_, rfl⟩
  have hanswers : one.answers [.runFor 4, .step] =
      [.error (.stackWrite 0 67305985 (.outOfBounds 2147482617 2147482618 2147482623)),
        .error (.invalidOpcode 9 1034)] := by
    cases hone
    decide +kernel
  have hlayout : one.memory.layout = ⟨1024, 1035, 1135, 2147482623, 2147482618⟩ := by
    cases hone
    rfl
  have hlayout' : two.memory.layout = ⟨1031, 1042, 1042, 2147482620, 2147482615⟩ := by
    cases htwo
    rfl
  obtain ⟨hmoved, -⟩ := afterCalls_of_moved (by decide) (by decide) hone htwo [.runFor 4, .step]
  rw [hanswers, hlayout, hlayout'] at hmoved
  exact ⟨one, two, hone, htwo, hanswers, hmoved⟩

end Machine

end RegisterMachine
