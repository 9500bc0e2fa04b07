import RegisterMachine.Proofs.Machine.Calls
import RegisterMachine.Proofs.Machine.Refinement
import RegisterMachine.Proofs.Machine.Transition

/-!
# Invariants

What stays true of a machine whatever is asked of it, also after faults.  A step takes bytes off the front of those
still to fetch and puts bytes behind those already pushed (`Store.precedes_of_transition?`); it never takes anything
back.  Steps one after the other do the same, so both pointers stay within the regions they started in and move in
one direction only, and a machine that has halted stays as it is (`Machine.invariant_afterCalls`).
-/

namespace RegisterMachine

open Execution

/-- The faults that executing a program in the layout can end in.  Only a byte that would lie below the stack cannot
be pushed. -/
def Fault.Arises (layout : Layout) : Fault → Prop
  | truncatedOperand _ _ => True
  | registerOutOfRange _ _ _ _ => True
  | invalidOpcode _ _ => True
  | stackWrite _ _ cause => cause = .outOfBounds (layout.stackLimit - 1) layout.stackLimit layout.stackBase
  | tooManyRegisters _ => False
  | memory _ => False
  | addressOverflow => False

/-- The second store has as many registers, and nothing that was pushed to the first one is missing. -/
structure Store.Precedes (before after : Store) : Prop where
  size_registers : after.registers.size = before.registers.size
  pushed : before.pushed <+: after.pushed

theorem Store.Precedes.refl (store : Store) : store.Precedes store := ⟨rfl, List.prefix_refl _⟩

theorem Store.Precedes.trans {first second third : Store} (h : first.Precedes second) (h' : second.Precedes third) :
    first.Precedes third := ⟨h'.size_registers.trans h.size_registers, h.pushed.trans h'.pushed⟩

namespace Instruction

theorem arises_of_fault? {layout : Layout} {address : Int} {store : Store} {instruction : Instruction} {fault : Fault}
    (h : instruction.fault? layout address store = some fault) : fault.Arises layout := by
  unfold fault? at h
  split at h
  · cases h
    trivial
  · cases instruction with
    | push source =>
      simp only [overflow?] at h
      split at h
      · cases h
        rfl
      · cases h
    | _ => cases h

/-- An instruction keeps what was pushed before it, even if it fills the stack. -/
theorem precedes_effect {layout : Layout} {store : Store} (hroom : store.pushed.length ≤ layout.capacity)
    (instruction : Instruction) : store.Precedes (instruction.effect layout store) := by
  unfold effect
  split
  · exact .refl store
  · refine ⟨size_update instruction store.registers, ?_⟩
    exact List.prefix_take_iff.2 ⟨List.prefix_append _ _, hroom⟩

end Instruction

/-- A transition takes bytes off the front of those to fetch, lets the store grow, and ends in no other fault. -/
theorem Store.precedes_of_transition? {layout : Layout} {store : Store} {rest : List UInt8} {next : Transition}
    (hroom : store.pushed.length ≤ layout.capacity) (h : store.transition? layout rest = some next) :
    next.rest <:+ rest ∧ store.Precedes next.store ∧ ∀ fault, next.fault? = some fault → fault.Arises layout := by
  cases rest using Listing.ofBytes.induct with
  | case1 => cases h
  | case2 byte bytes hop =>
    rw [transition?_of_unassigned layout store hop] at h
    cases h
    refine ⟨List.suffix_cons _ _, .refl _, ?_⟩
    rintro fault ⟨⟩
    trivial
  | case3 byte bytes op hop hread =>
    rw [transition?_of_cutShort layout store hop hread] at h
    cases h
    refine ⟨List.nil_suffix, .refl _, ?_⟩
    rintro fault ⟨⟩
    trivial
  | case4 byte bytes op hop instruction left hread =>
    rw [transition?_of_instruction layout store hop hread] at h
    cases h
    have hleft : left <:+ byte :: bytes := by
      rw [(Instruction.eq_of_ofOperands? hread).2]
      exact (List.suffix_append _ _).trans (List.suffix_cons _ _)
    exact ⟨hleft, Instruction.precedes_effect hroom instruction,
      fun fault hfault => Instruction.arises_of_fault? hfault⟩

namespace Machine

variable {program : Array UInt8} {layout : Layout} {machine : Machine} {store : Store} {rest : List UInt8}

/-- What a step can do: nothing if no byte is left to fetch, and otherwise it fetches some and lets the store grow,
whether it ends in a fault or not. -/
theorem Matches.exists_run_step (h : machine.Matches program layout rest store) :
    (rest = [] ∧ step.run machine = .ok .halted machine) ∨
    (rest ≠ [] ∧ ∃ last left grown fault?, step.run machine = ended fault? .executed last ∧
      last.Matches program layout left grown ∧ left <:+ rest ∧ store.Precedes grown ∧
      ∀ fault, fault? = some fault → fault.Arises layout) := by
  have hstep := h.run_step
  cases hnext : store.transition? layout rest with
  | none =>
    rw [hnext] at hstep
    exact Or.inl ⟨Store.transition?_eq_none_iff.1 hnext, hstep⟩
  | some next =>
    have hne : rest ≠ [] := by
      rintro rfl
      cases hnext
    rw [hnext] at hstep
    obtain ⟨last, hrun, hlast⟩ := hstep
    obtain ⟨hleft, hgrown, harises⟩ := Store.precedes_of_transition? h.pushed_le hnext
    exact Or.inr ⟨hne, last, next.rest, next.store, next.fault?, hrun, hlast, hleft, hgrown, harises⟩

/-- What one step keeps. -/
private theorem Matches.exists_after_step (h : machine.Matches program layout rest store) :
    ∃ left grown, (step.after machine).Matches program layout left grown ∧ left <:+ rest ∧ store.Precedes grown := by
  have hafter := h.after_step
  cases hnext : store.transition? layout rest with
  | none =>
    rw [hnext] at hafter
    refine ⟨rest, store, ?_, List.suffix_refl _, .refl _⟩
    rw [hafter]
    exact h
  | some next =>
    rw [hnext] at hafter
    obtain ⟨hleft, hgrown, -⟩ := Store.precedes_of_transition? h.pushed_le hnext
    exact ⟨next.rest, next.store, hafter, hleft, hgrown⟩

/-- What any number of steps keep. -/
theorem Matches.exists_of_steps {last : Machine} (h : machine.Matches program layout rest store)
    (hsteps : machine.Steps last) :
    ∃ left grown, last.Matches program layout left grown ∧ left <:+ rest ∧ store.Precedes grown := by
  induction hsteps with
  | refl => exact ⟨rest, store, h, List.suffix_refl _, .refl _⟩
  | tail _ hstep ih =>
    obtain ⟨left, grown, hmiddle, hleft, hgrown⟩ := ih
    obtain ⟨left', grown', hlast, hleft', hgrown'⟩ := hmiddle.exists_after_step
    rw [hstep]
    exact ⟨left', grown', hlast, hleft'.trans hleft, hgrown.trans hgrown'⟩

/-- Steps do not change a machine that has halted. -/
private theorem eq_of_steps_of_halted {last : Machine} (h : step.run machine = .ok .halted machine)
    (hsteps : machine.Steps last) : last = machine := by
  induction hsteps with
  | refl => rfl
  | tail _ hstep ih => rw [hstep, ih, after, h]

/-- A fault of a call is the fault of a step. -/
theorem Matches.arises_of_run_action {call : Call} {fault : Fault} {last : Machine}
    (h : machine.Matches program layout rest store) (hrun : call.action.run machine = .error fault last) :
    fault.Arises layout := by
  have hsteps := doesSteps_action call machine
  rw [hrun] at hsteps
  obtain ⟨before, hbefore, hstep⟩ := hsteps
  obtain ⟨left, grown, hmatch, -, -⟩ := h.exists_of_steps hbefore
  rcases hmatch.exists_run_step with ⟨-, hhalted⟩ | ⟨-, _, _, _, fault?, hended, -, -, -, harises⟩
  · rw [hhalted] at hstep
    cases hstep
  · rw [hended] at hstep
    cases fault? with
    | none => cases hstep
    | some other =>
      cases hstep
      exact harises fault rfl

theorem Matches.isHalted_iff (h : machine.Matches program layout rest store) :
    machine.isHalted = true ↔ rest = [] := by
  rw [h.isHalted_eq, List.isEmpty_iff]

theorem Matches.instructionPointer_eq_end_iff (h : machine.Matches program layout rest store) :
    machine.instructionPointer = layout.instructionsEnd ↔ rest = [] := by
  rw [h.instructionPointer_eq, ← List.length_eq_zero_iff]
  omega

theorem Matches.exists_run_step_halted_iff (h : machine.Matches program layout rest store) :
    (∃ last, step.run machine = .ok .halted last) ↔ rest = [] := by
  constructor
  · rintro ⟨last, hrun⟩
    rcases h.exists_run_step with ⟨hnil, -⟩ | ⟨-, _, _, _, fault?, hended, -⟩
    · exact hnil
    · rw [hended] at hrun
      cases fault? <;> cases hrun
  · rintro rfl
    exact ⟨machine, run_step_of_matches_nil h⟩

/-- Whatever is asked of a machine, and however it goes on after faults: the instruction pointer stays between the
bounds of the program and never moves back, the top of the stack stays between the base and the first address below
the stack and never moves up, and no register is added or lost.  No call leaves the address space or touches memory
that it must not, and only a byte below the stack cannot be pushed.  A machine has halted when its instruction pointer
is at the end of the program, which is when a step does nothing, and then nothing ever changes it. -/
theorem invariant_afterCalls {program : Array UInt8} {config : Config} {machine : Machine}
    (h : Machine.build program config = .ok machine) (calls more : List Call) :
    let layout := machine.memory.layout
    let now := machine.afterCalls calls
    let later := now.afterCalls more
    now.memory.layout = layout ∧
    (layout.instructionsStart ≤ now.instructionPointer ∧ now.instructionPointer ≤ layout.instructionsEnd) ∧
    now.instructionPointer ≤ later.instructionPointer ∧
    (layout.stackLimit - 1 ≤ now.stackTop ∧ now.stackTop ≤ layout.stackBase) ∧
    later.stackTop ≤ now.stackTop ∧
    now.registers.size = config.registerCount.toNat ∧
    (∀ (call : Call) fault last, call.action.run now = .error fault last →
      fault ≠ .addressOverflow ∧ (∀ cause, fault ≠ .memory cause) ∧
      ∀ register value cause, fault = .stackWrite register value cause →
        cause = .outOfBounds (layout.stackLimit - 1) layout.stackLimit layout.stackBase) ∧
    (now.isHalted = true ↔ now.instructionPointer = layout.instructionsEnd) ∧
    (now.isHalted = true ↔ ∃ last, step.run now = .ok .halted last) ∧
    (now.isHalted = true → later = now ∧ step.run later = .ok .halted later) := by
  intro layout now later
  have hstart : machine.Matches program layout program.toList (.initial config.registerCount.toNat) :=
    Machine.matches_of_build h
  obtain ⟨rest, store, hnow, -, hstore⟩ := hstart.exists_of_steps (steps_afterCalls machine calls)
  have hsteps := steps_afterCalls now more
  obtain ⟨left, grown, hlater, hleft, hgrown⟩ := hnow.exists_of_steps hsteps
  have hend := hnow.fits.instructionsEnd_eq
  have hbase := hnow.fits.stackLimit_le
  have hrest := hnow.length_rest_le
  have hpushed := hnow.pushed_le
  unfold Layout.capacity at hpushed
  refine ⟨hnow.layout_eq, ?_, ?_, ?_, ?_, ?_, ?_, ?_, ?_, ?_⟩
  · rw [hnow.instructionPointer_eq]
    omega
  · have hle := hleft.length_le
    rw [hnow.instructionPointer_eq, hlater.instructionPointer_eq]
    omega
  · rw [hnow.stackTop_eq]
    omega
  · have hle := hgrown.pushed.length_le
    rw [hnow.stackTop_eq, hlater.stackTop_eq]
    omega
  · rw [hnow.registers_eq, hstore.size_registers, Store.initial, Array.size_replicate]
  · intro call fault last hrun
    have harises := hnow.arises_of_run_action hrun
    refine ⟨?_, ?_, ?_⟩
    · rintro rfl
      exact harises
    · rintro cause rfl
      exact harises
    · rintro register value cause rfl
      exact harises
  · rw [hnow.isHalted_iff, hnow.instructionPointer_eq_end_iff]
  · rw [hnow.isHalted_iff, hnow.exists_run_step_halted_iff]
  · intro hhalted
    rw [hnow.isHalted_iff] at hhalted
    subst hhalted
    have hrun := run_step_of_matches_nil hnow
    have hsame : later = now := eq_of_steps_of_halted hrun hsteps
    rw [hsame]
    exact ⟨rfl, hrun⟩

/-- A push overfills a stack of three bytes, an unassigned byte follows, and the program ends inside another push.
The heap, which is where the pointer goes then, begins without a gap. -/
theorem invariant_afterCalls_of_faults :
    ∃ machine, Machine.build #[8, 0, 4, 8] { stackSize := 2, heapGap := 0 } = .ok machine ∧
      machine.memory.layout = ⟨1024, 1028, 1028, 2147482623, 2147482621⟩ ∧
      let now := machine.afterCalls [.run, .step]
      let later := now.afterCalls [.runFor 3, .run]
      (1024 ≤ now.instructionPointer ∧ now.instructionPointer ≤ 1028) ∧
      now.instructionPointer ≤ later.instructionPointer ∧
      (2147482620 ≤ now.stackTop ∧ now.stackTop ≤ 2147482623) ∧ later.stackTop ≤ now.stackTop ∧
      now.registers.size = 8 ∧ (now.isHalted = true ↔ now.instructionPointer = 1028) := by
  obtain ⟨machine, h⟩ :
      ∃ machine, Machine.build #[8, 0, 4, 8] { stackSize := 2, heapGap := 0 } = .ok machine := ⟨_, rfl⟩
  have hlayout : machine.memory.layout = ⟨1024, 1028, 1028, 2147482623, 2147482621⟩ := by
    cases h
    rfl
  refine ⟨machine, h, hlayout, ?_⟩
  obtain ⟨-, hpointer, hforward, htop, hdown, hcount, -, hhalted, -, -⟩ :=
    invariant_afterCalls h [.run, .step] [.runFor 3, .run]
  rw [hlayout] at hpointer htop hhalted
  exact ⟨hpointer, hforward, htop, hdown, hcount, hhalted⟩

end Machine

end RegisterMachine
