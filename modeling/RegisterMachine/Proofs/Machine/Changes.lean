import RegisterMachine.Proofs.Machine.Framing
import RegisterMachine.Proofs.Machine.Fuel

/-!
# Changes

What a step leaves as it was.  A step that fails keeps all registers, and all of memory unless it is a push that finds
too little room: such a push has then put the front of its value on what was left of the stack (`Store.Fails`).  A step
that executes an instruction changes the register that receives, or it puts four bytes on the stack, and nothing else
(`Machine.changes_of_step`).
-/

namespace RegisterMachine

open Execution

variable {layout : Layout} {store grown : Store} {rest left : List UInt8}

/-- What is behind a fault: the store as it was, or as a push leaves it whose bytes do not all find room. -/
inductive Store.Fails (layout : Layout) (store : Store) : Fault → Store → Prop where
  | keeps {fault : Fault} (hfault : ∀ source value cause, fault ≠ .stackWrite source value cause) :
      store.Fails layout fault store
  | fills {source : UInt8} {value : Word} (hvalue : store.registers[source.toNat]? = some value)
      (hfull : layout.capacity < store.pushed.length + 4) :
      store.Fails layout
        (.stackWrite source value (.outOfBounds (layout.stackLimit - 1) layout.stackLimit layout.stackBase))
        { store with pushed := store.pushed ++ value.toBytes.take (layout.capacity - store.pushed.length) }

namespace Instruction

theorem fails_of_fault? {address : Int} {instruction : Instruction} {fault : Fault}
    (hroom : store.pushed.length ≤ layout.capacity) (h : instruction.fault? layout address store = some fault) :
    store.Fails layout fault (instruction.effect layout store) := by
  unfold fault? at h
  split at h
  · rename_i register hmissing
    cases h
    rw [effect, hmissing]
    exact .keeps (by rintro _ _ _ ⟨⟩)
  · rename_i hmissing
    cases instruction with
    | push source =>
      simp only [overflow?] at h
      split at h
      · rename_i hfull
        cases h
        have hsource := missing?_eq_none_iff.1 hmissing source (by simp [named])
        have heffect : (push source).effect layout store =
            { store with
              pushed := store.pushed ++
                (store.registers.getD source.toNat 0).toBytes.take (layout.capacity - store.pushed.length) } := by
          rw [effect, hmissing]
          simp only [perform, output, update]
          rw [List.take_append, List.take_of_length_le hroom]
        rw [heffect]
        exact .fills (getElem?_eq_some_getD hsource) hfull
      · cases h
    | _ => cases h

/-- An instruction changes no register but the one that receives. -/
theorem getElem?_update_of_ne {instruction : Instruction} {index : Nat}
    (h : ∀ dest, instruction.dest? = some dest → index ≠ dest.toNat) (registers : Array Word) :
    (instruction.update registers)[index]? = registers[index]? := by
  cases instruction with
  | noop | push _ => rfl
  | setReg dest _ | copyReg dest _ | xor dest _ => exact Array.getElem?_setIfInBounds_ne (Ne.symm (h dest rfl))

end Instruction

namespace Store

theorem fails_of_transition? {next : Transition} {fault : Fault} (hroom : store.pushed.length ≤ layout.capacity)
    (h : store.transition? layout rest = some next) (hfault : next.fault? = some fault) :
    store.Fails layout fault next.store := by
  cases rest using Listing.ofBytes.induct with
  | case1 => cases h
  | case2 byte bytes hop =>
    rw [transition?_of_unassigned layout store hop] at h
    cases h
    cases hfault
    exact .keeps (by rintro _ _ _ ⟨⟩)
  | case3 byte bytes op hop hread =>
    rw [transition?_of_cutShort layout store hop hread] at h
    cases h
    cases hfault
    exact .keeps (by rintro _ _ _ ⟨⟩)
  | case4 byte bytes op hop instruction left hread =>
    rw [transition?_of_instruction layout store hop hread] at h
    cases h
    exact Instruction.fails_of_fault? hroom hfault

/-- A transition without a fault performs the instruction in front. -/
theorem exists_instruction_of_transition? (hroom : store.pushed.length ≤ layout.capacity)
    (h : store.transition? layout rest = some ⟨left, grown, none⟩) :
    ∃ instruction : Instruction, rest = instruction.toBytes ++ left ∧
      instruction.missing? store.registers.size = none ∧ grown = instruction.perform store := by
  cases rest using Listing.ofBytes.induct with
  | case1 => cases h
  | case2 byte bytes hop =>
    rw [transition?_of_unassigned layout store hop] at h
    cases h
  | case3 byte bytes op hop hread =>
    rw [transition?_of_cutShort layout store hop hread] at h
    cases h
  | case4 byte bytes op hop instruction behind hread =>
    rw [transition?_of_instruction layout store hop hread, Option.some.injEq, Transition.mk.injEq] at h
    obtain ⟨rfl, rfl, hfault⟩ := h
    obtain ⟨rfl, rfl⟩ := Instruction.eq_of_ofOperands? hread
    refine ⟨instruction, ?_, (Instruction.fault?_eq_none_iff.1 hfault).1,
      Instruction.effect_of_completes hroom hfault⟩
    rw [Instruction.toBytes, Opcode.toByte_of_ofByte? hop, List.cons_append]

end Store

namespace Machine

/-- The second machine has bytes more on its stack than the first one.  They lie from its top down, the top is below
them, and no other address holds anything else. -/
structure Puts (before : Machine) (bytes : List UInt8) (after : Machine) : Prop where
  layout_eq : after.memory.layout = before.memory.layout
  stackTop_eq : after.stackTop = before.stackTop - bytes.length
  read_put : ∀ (index : Nat) byte, bytes[index]? = some byte →
    after.memory.read (before.stackTop - index) = .ok byte
  read_other : ∀ address, ¬(before.stackTop - bytes.length < address ∧ address ≤ before.stackTop) →
    after.memory.read address = before.memory.read address

namespace Matches

variable {program : Array UInt8} {machine last : Machine} {bytes : List UInt8}

/-- More bytes pushed are more bytes on the stack. -/
theorem puts (h : machine.Matches program layout rest store) (hlast : last.Matches program layout left grown)
    (hpushed : grown.pushed = store.pushed ++ bytes) : machine.Puts bytes last where
  layout_eq := by rw [hlast.layout_eq, h.layout_eq]
  stackTop_eq := by
    rw [hlast.stackTop_eq, h.stackTop_eq, hpushed, List.length_append]
    omega
  read_put := by
    intro index byte hbyte
    obtain ⟨hlt, -⟩ := List.getElem?_eq_some_iff.1 hbyte
    have hle := hlast.pushed_le
    rw [hpushed, List.length_append] at hle
    have hdepth : store.pushed.length + index < layout.capacity := by omega
    have hread := hlast.read_stack hdepth
    rw [hpushed, List.getElem?_append_right (Nat.le_add_right _ _), Nat.add_sub_cancel_left, hbyte] at hread
    have haddress : machine.stackTop - index = layout.stackBase - (store.pushed.length + index : Nat) := by
      rw [h.stackTop_eq]
      omega
    rw [haddress]
    exact hread
  read_other := by
    intro address houtside
    have htop := h.stackTop_eq
    rw [Memory.read_eq_found hlast.memory_fits, Memory.read_eq_found h.memory_fits, hlast.contents_eq, h.contents_eq,
      hpushed]
    congr 1
    split
    · rfl
    · split
      · by_cases hbelow : address ≤ machine.stackTop - bytes.length
        · -- Neither machine has pushed as far down as this.
          rw [List.getElem?_eq_none (by simp only [List.length_append]; omega), List.getElem?_eq_none (by omega)]
        · rw [List.getElem?_append_left (by omega)]
      · rfl

/-- Machines that have pushed the same bytes differ at most in where they stand and in their registers. -/
theorem eq_of_pushed_eq (h : machine.Matches program layout rest store) (hlast : last.Matches program layout left grown)
    (hpushed : grown.pushed = store.pushed) :
    last = { machine with instructionPointer := last.instructionPointer, registers := last.registers } := by
  have hmemory : ∀ first second : Memory, first.layout = second.layout → first.program = second.program →
      first.heap = second.heap → first.stack = second.stack → first = second := by
    rintro ⟨_, _, _, _⟩ ⟨_, _, _, _⟩ rfl rfl rfl rfl
    rfl
  have hsame : last.memory = machine.memory := by
    apply hmemory
    · rw [hlast.layout_eq, h.layout_eq]
    · rw [hlast.program_eq, h.program_eq]
    · rw [hlast.heap_eq, h.heap_eq]
    · rw [hlast.stack_eq, h.stack_eq, hpushed]
  have htop : last.stackTop = machine.stackTop := by rw [hlast.stackTop_eq, h.stackTop_eq, hpushed]
  rw [← hsame, ← htop]

/-- The transition that a step makes which does not halt. -/
theorem exists_transition?_of_run_step {fault? : Option Fault} (h : machine.Matches program layout rest store)
    (hrun : step.run machine = ended fault? .executed last) :
    ∃ left grown, store.transition? layout rest = some ⟨left, grown, fault?⟩ ∧
      last.Matches program layout left grown := by
  have hstep := h.run_step
  cases hnext : store.transition? layout rest with
  | none =>
    rw [hnext, hrun] at hstep
    cases fault? <;> cases hstep
  | some next =>
    obtain ⟨left, grown, other?⟩ := next
    rw [hnext] at hstep
    obtain ⟨other, hother, hlast⟩ := hstep
    rw [hrun] at hother
    cases fault? <;> cases other? <;> cases hother <;> exact ⟨left, grown, rfl, hlast⟩

/-- A step that fails keeps the registers, and what it changes besides the instruction pointer is the stack, if it is a
push that fills it. -/
theorem changes_of_fault {fault : Fault} (h : machine.Matches program layout rest store)
    (hrun : step.run machine = .error fault last) :
    last.registers = machine.registers ∧
    ((∀ source value cause, fault ≠ .stackWrite source value cause) →
      last = { machine with instructionPointer := last.instructionPointer }) ∧
    ∀ source value cause, fault = .stackWrite source value cause →
      machine.registers[source.toNat]? = some value ∧
      cause = .outOfBounds (layout.stackLimit - 1) layout.stackLimit layout.stackBase ∧
      last.stackTop = layout.stackLimit - 1 ∧
      ∃ count : Nat, count = machine.stackTop - layout.stackLimit + 1 ∧ count ≤ 3 ∧
        machine.Puts (value.toBytes.take count) last := by
  have hroom := h.pushed_le
  have hlimit := h.fits.stackLimit_le
  have htop := h.stackTop_eq
  have hended : step.run machine = ended (some fault) .executed last := hrun
  obtain ⟨left, grown, hnext, hlast⟩ := h.exists_transition?_of_run_step hended
  have hregisters : last.registers = machine.registers := by
    rw [hlast.registers_eq, h.registers_eq]
    cases Store.fails_of_transition? hroom hnext rfl <;> rfl
  refine ⟨hregisters, ?_⟩
  cases Store.fails_of_transition? hroom hnext rfl with
  | keeps hfault =>
    constructor
    · intro _
      rw [← hregisters]
      exact h.eq_of_pushed_eq hlast rfl
    · intro source value cause heq
      exact absurd heq (hfault source value cause)
  | fills hvalue hfull =>
    constructor
    · intro hne
      exact absurd rfl (hne _ _ _)
    · rintro source value cause ⟨⟩
      have hputs := h.puts hlast rfl
      have hbelow := hputs.stackTop_eq
      rw [List.length_take, Word.length_toBytes] at hbelow
      unfold Layout.capacity at hroom hfull hbelow
      refine ⟨by rw [h.registers_eq, hvalue], rfl, by omega, layout.capacity - store.pushed.length, ?_, ?_, hputs⟩
      · unfold Layout.capacity
        omega
      · unfold Layout.capacity
        omega

/-- A step that executes an instruction changes what the instruction receives in or pushes to. -/
theorem changes_of_executed (h : machine.Matches program layout rest store)
    (hrun : step.run machine = .ok .executed last) :
    ∃ instruction : Instruction, machine.memory.ReadsFrom machine.instructionPointer instruction.toBytes ∧
      match instruction with
      | .push source => last.registers = machine.registers ∧
          ∃ value, machine.registers[source.toNat]? = some value ∧ machine.Puts value.toBytes last
      | _ => last = { machine with
            instructionPointer := last.instructionPointer
            registers := last.registers } ∧
          last.registers.size = machine.registers.size ∧
          ∀ index : Nat, (∀ dest, instruction.dest? = some dest → index ≠ dest.toNat) →
            last.registers[index]? = machine.registers[index]? := by
  have hended : step.run machine = ended none .executed last := hrun
  obtain ⟨left, grown, hnext, hlast⟩ := h.exists_transition?_of_run_step hended
  obtain ⟨instruction, rfl, hmissing, rfl⟩ := Store.exists_instruction_of_transition? h.pushed_le hnext
  refine ⟨instruction, h.readsFrom.of_append, ?_⟩
  cases instruction with
  | push source =>
    have hsource := Instruction.missing?_eq_none_iff.1 hmissing source (by simp [Instruction.named])
    rw [hlast.registers_eq, h.registers_eq]
    exact ⟨rfl, _, Instruction.getElem?_eq_some_getD hsource, h.puts hlast rfl⟩
  | _ =>
    refine ⟨h.eq_of_pushed_eq hlast ?_, ?_, ?_⟩
    · simp [Instruction.perform, Instruction.output]
    · rw [hlast.registers_eq, h.registers_eq]
      exact Instruction.size_update _ _
    · intro index hne
      rw [hlast.registers_eq, h.registers_eq]
      exact Instruction.getElem?_update_of_ne hne _

end Matches

/-- Whatever was asked of a machine before, a step changes little.  If it ends in a fault, the registers are as before,
and but for a push that finds too little room so is everything except the instruction pointer.  Such a push has put as
many bytes of its value on the stack as were free, three at most, and names the address below the stack, where the top
now is.  A step that halts changes nothing.  A step that executes a push puts the four bytes of a register on the stack
and keeps the registers; a step that executes any other instruction moves the instruction pointer and changes at most
the register that receives. -/
theorem changes_of_step {program : Array UInt8} {config : Config} {machine : Machine}
    (h : Machine.build program config = .ok machine) (calls : List Call) :
    let layout := machine.memory.layout
    let now := machine.afterCalls calls
    (∀ fault last, step.run now = .error fault last →
      last.registers = now.registers ∧
      ((∀ source value cause, fault ≠ .stackWrite source value cause) →
        last = { now with instructionPointer := last.instructionPointer }) ∧
      ∀ source value cause, fault = .stackWrite source value cause →
        now.registers[source.toNat]? = some value ∧
        cause = .outOfBounds (layout.stackLimit - 1) layout.stackLimit layout.stackBase ∧
        last.stackTop = layout.stackLimit - 1 ∧
        ∃ count : Nat, count = now.stackTop - layout.stackLimit + 1 ∧ count ≤ 3 ∧
          now.Puts (value.toBytes.take count) last) ∧
    (∀ last, step.run now = .ok .halted last → last = now) ∧
    ∀ last, step.run now = .ok .executed last →
      ∃ instruction : Instruction, now.memory.ReadsFrom now.instructionPointer instruction.toBytes ∧
        match instruction with
        | .push source => last.registers = now.registers ∧
            ∃ value, now.registers[source.toNat]? = some value ∧ now.Puts value.toBytes last
        | _ => last = { now with
              instructionPointer := last.instructionPointer
              registers := last.registers } ∧
            last.registers.size = now.registers.size ∧
            ∀ index : Nat, (∀ dest, instruction.dest? = some dest → index ≠ dest.toNat) →
              last.registers[index]? = now.registers[index]? := by
  intro layout now
  obtain ⟨rest, store, hnow, -, -⟩ := (matches_of_build h).exists_of_steps (steps_afterCalls machine calls)
  refine ⟨?_, ?_, ?_⟩
  · intro fault last hrun
    exact hnow.changes_of_fault hrun
  · intro last hrun
    exact (isHalted_of_run_step hrun).2
  · intro last hrun
    exact hnow.changes_of_executed hrun

/-- The stack has six bytes, of which the first push has taken four.  The second one fills the other two and fails. -/
theorem changes_of_step_full_stack :
    ∃ machine last, Machine.build #[1, 0, 1, 2, 3, 4, 8, 0, 8, 0] { stackSize := 5 } = .ok machine ∧
      let now := machine.afterCalls [.step, .step]
      step.run now = .error (.stackWrite 0 67305985 (.outOfBounds 2147482617 2147482618 2147482623)) last ∧
      now.stackTop = 2147482619 ∧ last.stackTop = 2147482617 ∧ last.registers = now.registers ∧
      last.memory.read 2147482619 = .ok 1 ∧ last.memory.read 2147482618 = .ok 2 ∧
      last.memory.read 2147482620 = now.memory.read 2147482620 := by
  obtain ⟨machine, h⟩ :
      ∃ machine, Machine.build #[1, 0, 1, 2, 3, 4, 8, 0, 8, 0] { stackSize := 5 } = .ok machine := ⟨_, rfl⟩
  have hlayout : machine.memory.layout = ⟨1024, 1034, 1134, 2147482623, 2147482618⟩ := by
    cases h
    rfl
  have htop : (machine.afterCalls [.step, .step]).stackTop = 2147482619 := by
    cases h
    decide +kernel
  have hanswer : (machine.afterCalls [.step, .step]).answer .step =
      .error (.stackWrite 0 67305985 (.outOfBounds 2147482617 2147482618 2147482623)) := by
    cases h
    decide +kernel
  obtain ⟨last, hrun⟩ := exists_run_of_answer_error rfl hanswer
  obtain ⟨hfault, -, -⟩ := changes_of_step h [.step, .step]
  obtain ⟨hregisters, -, hfull⟩ := hfault _ _ hrun
  obtain ⟨-, -, hbelow, count, hcount, -, hputs⟩ := hfull 0 67305985 _ rfl
  rw [htop, hlayout] at hcount
  obtain rfl : count = 2 := by
    dsimp only at hcount
    omega
  rw [hlayout] at hbelow
  have hfirst := hputs.read_put 0 1 (by decide)
  have hsecond := hputs.read_put 1 2 (by decide)
  have hother := hputs.read_other 2147482620 (by rw [htop]; decide)
  rw [htop] at hfirst hsecond
  exact ⟨machine, last, h, hrun, htop, hbelow, hregisters, hfirst, hsecond, hother⟩

end Machine

end RegisterMachine
