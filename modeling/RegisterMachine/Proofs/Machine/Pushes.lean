import RegisterMachine.Proofs.Machine.Calls
import RegisterMachine.Proofs.Machine.Refinement
import RegisterMachine.Proofs.Machine.Transition

/-!
# Pushes

The memory of a machine is the history of what it was told to push.  A step pushes the bytes of one value or nothing,
as far as the stack has room (`Machine.Matches.exists_pushed_after`), so after any calls the stack holds the bytes of
all values pushed, cut off where the stack ends, and nothing else was ever written (`Machine.read_afterCalls`).
-/

namespace RegisterMachine

open Execution

/-- The value that an instruction pushes, or tries to push, if it names a register that exists. -/
def Instruction.pushing? (registers : Array Word) : Instruction → Option Word
  | push source => registers[source.toNat]?
  | _ => none

namespace Machine

/-- The bytes of the program that the machine has not fetched yet. -/
def unfetched (machine : Machine) : List UInt8 :=
  machine.memory.program.toList.drop (machine.instructionPointer - machine.memory.layout.instructionsStart).toNat

/-- The value that the next step pushes, or tries to push: that of the register which a push in front of the
instruction pointer names. -/
def pushing? (machine : Machine) : Option Word :=
  (Listing.ofBytes machine.unfetched).instructions.head?.bind (Instruction.pushing? machine.registers)

/-- The values that the given number of steps push, or try to push, one after the other. -/
def pushes : Nat → Machine → List Word
  | 0, _ => []
  | count + 1, machine => machine.pushing?.toList ++ (step.after machine).pushes count

end Machine

private theorem take_append_nil {α : Type} {room : Nat} {front : List α} (h : front.length ≤ room) :
    (front ++ []).take room = front := by
  rw [List.append_nil, List.take_of_length_le h]

/-- What did not fit before does not fit later. -/
private theorem take_take_append {α : Type} (room : Nat) (front back : List α) :
    (front.take room ++ back).take room = (front ++ back).take room := by
  have hleft : room - (front.take room).length = room - front.length := by
    rw [List.length_take]
    omega
  rw [List.take_append, List.take_append, hleft, List.take_take, Nat.min_self]

/-- An instruction pushes the bytes of its value as far as there is room. -/
theorem Instruction.pushed_effect {layout : Layout} {store : Store} (hroom : store.pushed.length ≤ layout.capacity)
    (instruction : Instruction) :
    (instruction.effect layout store).pushed =
      (store.pushed ++ (instruction.pushing? store.registers).toList.flatMap Word.toBytes).take layout.capacity := by
  cases instruction with
  | push source =>
    have hmissing : (push source).missing? store.registers.size =
        if store.registers.size ≤ source.toNat then some source else none := missing?_one rfl
    unfold effect
    rw [hmissing]
    by_cases hsource : store.registers.size ≤ source.toNat
    · rw [if_pos hsource, pushing?, Array.getElem?_eq_none hsource]
      exact (take_append_nil hroom).symm
    · rw [if_neg hsource, pushing?, getElem?_eq_some_getD (Nat.lt_of_not_le hsource)]
      simp only [perform, output, Option.toList_some, List.flatMap_singleton]
  | _ =>
    unfold effect
    split
    · exact (take_append_nil hroom).symm
    · rfl

/-- A transition pushes the bytes of the value of the first instruction, if there is one. -/
theorem Store.pushed_of_transition? {layout : Layout} {store : Store} {rest : List UInt8} {next : Transition}
    (hroom : store.pushed.length ≤ layout.capacity) (h : store.transition? layout rest = some next) :
    next.store.pushed = (store.pushed ++ ((Listing.ofBytes rest).instructions.head?.bind
      (Instruction.pushing? store.registers)).toList.flatMap Word.toBytes).take layout.capacity := by
  cases rest using Listing.ofBytes.induct with
  | case1 => cases h
  | case2 byte bytes hop =>
    rw [transition?_of_unassigned layout store hop] at h
    cases h
    rw [Listing.ofBytes_of_unassigned hop]
    exact (take_append_nil hroom).symm
  | case3 byte bytes op hop hread =>
    rw [transition?_of_cutShort layout store hop hread] at h
    cases h
    rw [Listing.ofBytes_of_cutShort hop hread]
    exact (take_append_nil hroom).symm
  | case4 byte bytes op hop instruction left hread =>
    rw [transition?_of_instruction layout store hop hread] at h
    cases h
    rw [Listing.ofBytes_of_instruction hop hread]
    exact instruction.pushed_effect hroom

namespace Machine.Matches

variable {program : Array UInt8} {layout : Layout} {machine : Machine} {store : Store} {rest : List UInt8}

theorem unfetched_eq (h : machine.Matches program layout rest store) : machine.unfetched = rest := by
  have hend := h.fits.instructionsEnd_eq
  have hle := h.length_rest_le
  have hsize : program.toList.length = program.size := Array.length_toList
  have hindex : (machine.instructionPointer - layout.instructionsStart).toNat =
      program.toList.length - rest.length := by
    rw [h.instructionPointer_eq, hsize]
    omega
  rw [unfetched, h.program_eq, h.layout_eq, hindex, ← List.suffix_iff_eq_drop.1 h.suffix]

/-- What one step pushes. -/
theorem exists_pushed_after (h : machine.Matches program layout rest store) :
    ∃ left grown, (step.after machine).Matches program layout left grown ∧
      grown.pushed = (store.pushed ++ machine.pushing?.toList.flatMap Word.toBytes).take layout.capacity := by
  have hafter := h.after_step
  rw [pushing?, h.unfetched_eq, h.registers_eq]
  cases hnext : store.transition? layout rest with
  | none =>
    cases Store.transition?_eq_none_iff.1 hnext
    rw [hnext] at hafter
    refine ⟨[], store, ?_, ?_⟩
    · rw [hafter]
      exact h
    · rw [Listing.ofBytes_nil]
      exact (take_append_nil h.pushed_le).symm
  | some next =>
    rw [hnext] at hafter
    exact ⟨next.rest, next.store, hafter, Store.pushed_of_transition? h.pushed_le hnext⟩

/-- What any number of steps push. -/
theorem exists_pushed_afterSteps (h : machine.Matches program layout rest store) (count : Nat) :
    ∃ left grown, (machine.afterSteps count).Matches program layout left grown ∧
      grown.pushed = (store.pushed ++ (machine.pushes count).flatMap Word.toBytes).take layout.capacity := by
  induction count generalizing machine store rest with
  | zero =>
    exact ⟨rest, store, h, (take_append_nil h.pushed_le).symm⟩
  | succ count ih =>
    obtain ⟨left, grown, hmiddle, hpushed⟩ := h.exists_pushed_after
    obtain ⟨left', grown', hlast, hpushed'⟩ := ih hmiddle
    refine ⟨left', grown', hlast, ?_⟩
    rw [hpushed', hpushed, take_take_append, pushes, List.flatMap_append, List.append_assoc]

end Machine.Matches

private theorem Word.length_flatMap_toBytes (values : List Word) :
    (values.flatMap Word.toBytes).length = 4 * values.length := by
  induction values with
  | nil => rfl
  | cons value values ih =>
    rw [List.flatMap_cons, List.length_append, ih, Word.length_toBytes, List.length_cons]
    omega

/-- Memory is the history of pushes, whatever was asked of the machine and however often it faulted.  The values pushed
are those of the pushes that name a register, also of those that fail.  From the base of the stack down lie their
bytes in order, as many as the stack can hold, and the top of the stack is behind them.  Nothing else can be read from
the stack and nothing at all from the heap, and the program is what it was. -/
theorem Machine.read_afterCalls {program : Array UInt8} {config : Config} {machine : Machine}
    (h : Machine.build program config = .ok machine) (calls : List Call) :
    let layout := machine.memory.layout
    let values := machine.pushes (machine.stepsOfCalls calls)
    let bytes := values.flatMap Word.toBytes
    let now := machine.afterCalls calls
    let count := min (4 * values.length) (config.stackSize.toNat + 1)
    now.stackTop = layout.stackBase - count ∧
    (∀ index < count, ∃ byte, bytes[index]? = some byte ∧
      now.memory.read (layout.stackBase - index) = .ok byte) ∧
    (∀ address, layout.stackLimit ≤ address → address ≤ layout.stackBase - count →
      now.memory.read address = .error (.unmapped address)) ∧
    (∀ address, layout.heapStart ≤ address → address < layout.stackLimit →
      now.memory.read address = .error (.unmapped address)) ∧
    ∀ address, layout.instructionsStart ≤ address → address < layout.instructionsEnd →
      ∃ byte, program[(address - layout.instructionsStart).toNat]? = some byte ∧
        now.memory.read address = .ok byte := by
  intro layout values bytes now count
  have hcapacity : layout.capacity = config.stackSize.toNat + 1 := Machine.capacity_of_build h
  obtain ⟨left, grown, hnow, hpushed⟩ := (Machine.matches_of_build h).exists_pushed_afterSteps
    (machine.stepsOfCalls calls)
  rw [← Machine.afterCalls_eq_afterSteps] at hnow
  rw [Store.initial, List.nil_append] at hpushed
  have hlength : grown.pushed.length = count := by
    rw [hpushed, List.length_take, Word.length_flatMap_toBytes, hcapacity, Nat.min_comm]
  have hlayout : now.memory.layout = layout := hnow.layout_eq
  have hle : grown.pushed.length ≤ (layout.stackBase - layout.stackLimit + 1).toNat := hnow.pushed_le
  refine ⟨?_, ?_, ?_, ?_, ?_⟩
  · rw [hnow.stackTop_eq, hlength]
  · intro index hindex
    have hroom : index < layout.capacity := by omega
    obtain ⟨byte, hbyte⟩ : ∃ byte, grown.pushed[index]? = some byte :=
      ⟨_, List.getElem?_eq_getElem (hlength ▸ hindex)⟩
    refine ⟨byte, ?_, ?_⟩
    · rw [hpushed, List.getElem?_take, if_pos hroom] at hbyte
      exact hbyte
    · rw [hnow.read_stack hroom, hbyte]
      rfl
  · intro address hlow hhigh
    obtain ⟨depth, rfl⟩ : ∃ depth : Nat, address = layout.stackBase - depth :=
      ⟨(layout.stackBase - address).toNat, by omega⟩
    have hroom : depth < layout.capacity := by
      unfold Layout.capacity
      omega
    rw [hnow.read_stack hroom, List.getElem?_eq_none (by omega)]
    rfl
  · intro address hlow hhigh
    have hregion := hnow.fits.regionOf_eq_heap_iff.2 ⟨hlow, hhigh⟩
    exact hnow.holds.read_heap address (by rw [hlayout]; exact hregion)
  · intro address hlow hhigh
    have hread := Memory.read_of_program hnow.memory_fits address
    rw [hlayout, hnow.program_eq] at hread
    exact hread hlow hhigh

/-- A stack of six bytes has room for one and a half of three pushes; a push of a register that does not exist, in
between, leaves no trace. -/
theorem Machine.read_afterCalls_full_stack :
    ∃ machine, Machine.build #[1, 0, 1, 2, 3, 4, 8, 0, 8, 0, 8, 9, 8, 0] { stackSize := 5 } = .ok machine ∧
      machine.pushes (machine.stepsOfCalls [.runFor 9, .step, .runFor 2]) = [67305985, 67305985, 67305985] ∧
      let now := machine.afterCalls [.runFor 9, .step, .runFor 2]
      now.stackTop = 2147482617 ∧ now.memory.read 2147482618 = .ok 2 ∧
        now.memory.read 2147482617 = .error (.unmapped 2147482617) := by
  obtain ⟨machine, h⟩ : ∃ machine,
      Machine.build #[1, 0, 1, 2, 3, 4, 8, 0, 8, 0, 8, 9, 8, 0] { stackSize := 5 } = .ok machine := ⟨_, rfl⟩
  have hlayout : machine.memory.layout = ⟨1024, 1038, 1138, 2147482623, 2147482618⟩ := by
    cases h
    rfl
  have hpushes :
      machine.pushes (machine.stepsOfCalls [.runFor 9, .step, .runFor 2]) = [67305985, 67305985, 67305985] := by
    cases h
    decide +kernel
  obtain ⟨htop, hstack, -, hheap, -⟩ := Machine.read_afterCalls h [.runFor 9, .step, .runFor 2]
  rw [hpushes, hlayout] at htop hstack
  rw [hlayout] at hheap
  obtain ⟨byte, hbyte, hread⟩ := hstack 5 (by decide)
  cases hbyte.symm.trans (show _ = some 2 by decide)
  exact ⟨machine, h, hpushes, htop, hread, hheap 2147482617 (by decide) (by decide)⟩

end RegisterMachine
