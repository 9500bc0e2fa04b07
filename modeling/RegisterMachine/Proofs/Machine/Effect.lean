import RegisterMachine.Machine.Basic
import RegisterMachine.Proofs.Machine.Listing
import RegisterMachine.Proofs.Memory.Placement

/-!
# Effects

What instructions do to registers and to the stack, told without memory, pointers and fetching.  An instruction
completes unless it names a register that does not exist, or pushes where fewer than four bytes of the stack are
free; a push that fails fills what is left of the stack.  A listing is executed instruction by instruction up to the
first that does not complete, and then its ending decides.
-/

namespace RegisterMachine

/-- The registers, and all bytes pushed so far in their order. -/
structure Store where
  registers : Array Word
  pushed : List UInt8
deriving DecidableEq, Repr

/-- All registers are zero and nothing is pushed. -/
def Store.initial (count : Nat) : Store := ⟨Array.replicate count 0, []⟩

namespace Instruction

/-- The registers that the instruction names, in the order they are looked at. -/
def named : Instruction → List UInt8
  | noop => []
  | setReg dest _ => [dest]
  | copyReg dest source => [source, dest]
  | xor dest source => [source, dest]
  | push source => [source]

/-- The registers behind the instruction.  Only the one that receives can change. -/
def update (instruction : Instruction) (registers : Array Word) : Array Word :=
  match instruction with
  | noop => registers
  | setReg dest value => registers.setIfInBounds dest.toNat value
  | copyReg dest source => registers.setIfInBounds dest.toNat (registers.getD source.toNat 0)
  | xor dest source =>
    registers.setIfInBounds dest.toNat (registers.getD dest.toNat 0 ^^^ registers.getD source.toNat 0)
  | push _ => registers

/-- The bytes that the instruction pushes. -/
def output (instruction : Instruction) (registers : Array Word) : List UInt8 :=
  match instruction with
  | push source => Word.toBytes (registers.getD source.toNat 0)
  | _ => []

/-- What an instruction that completes does. -/
def perform (store : Store) (instruction : Instruction) : Store where
  registers := instruction.update store.registers
  pushed := store.pushed ++ instruction.output store.registers

/-- The first register named that does not exist. -/
def missing? (instruction : Instruction) (count : Nat) : Option UInt8 :=
  instruction.named.find? fun register => decide (count ≤ register.toNat)

/-- Why a push does not complete.  The byte that fails is the one that would lie below the stack. -/
def overflow? (layout : Layout) (store : Store) : Instruction → Option Fault
  | push source =>
    if layout.capacity < store.pushed.length + 4 then
      some (.stackWrite source (store.registers.getD source.toNat 0)
        (.outOfBounds (layout.stackLimit - 1) layout.stackLimit layout.stackBase))
    else none
  | _ => none

/-- Why the instruction at the given address does not complete. -/
def fault? (layout : Layout) (address : Int) (store : Store) (instruction : Instruction) : Option Fault :=
  match instruction.missing? store.registers.size with
  | some register => some (.registerOutOfRange instruction.opcode address register store.registers.size)
  | none => instruction.overflow? layout store

/-- What the instruction leaves behind, whether it completes or not. -/
def effect (layout : Layout) (store : Store) (instruction : Instruction) : Store :=
  match instruction.missing? store.registers.size with
  | some _ => store
  | none =>
    let performed := instruction.perform store
    { performed with pushed := performed.pushed.take layout.capacity }

theorem missing?_one {instruction : Instruction} {register : UInt8} {count : Nat}
    (h : instruction.named = [register]) :
    instruction.missing? count = if count ≤ register.toNat then some register else none := by
  rw [missing?, h, List.find?_singleton]
  simp only [decide_eq_true_eq]

theorem missing?_two {instruction : Instruction} {source dest : UInt8} {count : Nat}
    (h : instruction.named = [source, dest]) :
    instruction.missing? count =
      if count ≤ source.toNat then some source else if count ≤ dest.toNat then some dest else none := by
  rw [missing?, h, List.find?_cons, List.find?_singleton]
  by_cases hs : count ≤ source.toNat <;> simp [hs]

@[simp] theorem size_update (instruction : Instruction) (registers : Array Word) :
    (instruction.update registers).size = registers.size := by
  cases instruction <;> simp [update]

/-- A register that exists holds a value. -/
theorem getElem?_eq_some_getD {registers : Array Word} {register : UInt8} (h : register.toNat < registers.size) :
    registers[register.toNat]? = some (registers.getD register.toNat 0) := by
  rw [Array.getD_eq_getD_getElem?, Array.getElem?_eq_getElem h, Option.getD_some]

/-- An instruction completes if all registers that it names exist and what it pushes finds room. -/
theorem fault?_eq_none_iff {layout : Layout} {address : Int} {store : Store} {instruction : Instruction} :
    instruction.fault? layout address store = none ↔
      instruction.missing? store.registers.size = none ∧ instruction.overflow? layout store = none := by
  unfold fault?
  cases instruction.missing? store.registers.size <;> simp

/-- An instruction that completes is performed to the end. -/
theorem effect_of_completes {layout : Layout} {address : Int} {store : Store} {instruction : Instruction}
    (hroom : store.pushed.length ≤ layout.capacity) (h : instruction.fault? layout address store = none) :
    instruction.effect layout store = instruction.perform store := by
  unfold fault? at h
  split at h
  · cases h
  · rename_i hmissing
    have hpushed : (instruction.perform store).pushed.length ≤ layout.capacity := by
      cases instruction with
      | push source =>
        simp only [overflow?] at h
        split at h
        · cases h
        · simp only [perform, output, List.length_append, Word.length_toBytes]
          omega
      | _ => simpa [perform, output] using hroom
    simp only [effect, hmissing, List.take_of_length_le hpushed]

/-- No instruction pushes more than the stack can hold. -/
theorem pushed_effect_le (layout : Layout) {store : Store} (hroom : store.pushed.length ≤ layout.capacity)
    (instruction : Instruction) : (instruction.effect layout store).pushed.length ≤ layout.capacity := by
  unfold effect
  split
  · exact hroom
  · exact List.length_take_le _ _

/-- An instruction that does not complete leaves the registers alone. -/
theorem registers_effect_of_fault {layout : Layout} {address : Int} {store : Store} {instruction : Instruction}
    {fault : Fault} (h : instruction.fault? layout address store = some fault) :
    (instruction.effect layout store).registers = store.registers := by
  unfold effect
  unfold fault? at h
  split at h
  · rfl
  · cases instruction with
    | push source => rfl
    | _ => simp [overflow?] at h

/-- Performing instructions one after the other changes the registers as their updates do. -/
theorem registers_foldl_perform (instructions : List Instruction) (store : Store) :
    (instructions.foldl perform store).registers =
      instructions.foldl (fun registers instruction => instruction.update registers) store.registers := by
  induction instructions generalizing store with
  | nil => rfl
  | cons instruction instructions ih => exact ih (instruction.perform store)

end Instruction

/-- Why a program does not halt cleanly behind its last whole instruction, which ends at the given address. -/
def Ending.fault? (address : Int) : Ending → Option Fault
  | complete => none
  | unassigned byte => some (.invalidOpcode byte address)
  | cutShort op => some (.truncatedOperand op address)

/-- How the execution of a listing ends: the number of instructions that complete, the store it leaves behind, and
the fault that ends it if it does not halt cleanly. -/
structure Account where
  completed : Nat
  store : Store
  fault : Option Fault
deriving DecidableEq, Repr

namespace Account

/-- Executes the instructions one after the other, the first of them at the given address. -/
def ofInstructions (layout : Layout) (ending : Ending) : Int → Store → List Instruction → Account
  | address, store, [] => ⟨0, store, ending.fault? address⟩
  | address, store, instruction :: instructions =>
    match instruction.fault? layout address store with
    | some fault => ⟨0, instruction.effect layout store, some fault⟩
    | none =>
      let others := ofInstructions layout ending (address + instruction.toBytes.length)
        (instruction.effect layout store) instructions
      { others with completed := others.completed + 1 }

theorem ofInstructions_of_fault {layout : Layout} {ending : Ending} {address : Int} {store : Store}
    {instruction : Instruction} {instructions : List Instruction} {fault : Fault}
    (h : instruction.fault? layout address store = some fault) :
    ofInstructions layout ending address store (instruction :: instructions) =
      ⟨0, instruction.effect layout store, some fault⟩ := by
  rw [ofInstructions, h]

theorem ofInstructions_of_completes {layout : Layout} {ending : Ending} {address : Int} {store : Store}
    {instruction : Instruction} {instructions : List Instruction}
    (h : instruction.fault? layout address store = none) :
    ofInstructions layout ending address store (instruction :: instructions) =
      { ofInstructions layout ending (address + instruction.toBytes.length) (instruction.effect layout store)
          instructions with
        completed := (ofInstructions layout ending (address + instruction.toBytes.length)
          (instruction.effect layout store) instructions).completed + 1 } := by
  rw [ofInstructions, h]

end Account

namespace Listing

/-- Executes a listing whose first instruction stands at the given address. -/
def execute (layout : Layout) (address : Int) (store : Store) (listing : Listing) : Account :=
  Account.ofInstructions layout listing.ending address store listing.instructions

/-- Why the execution of a listing does not go on behind the given number of instructions: the next one does not
complete, or there is none and the ending is not a clean one. -/
def stop? (layout : Layout) (address : Int) (store : Store) (listing : Listing) (count : Nat) : Option Fault :=
  let behind := listing.instructions.take count
  let next := address + (behind.flatMap Instruction.toBytes).length
  match listing.instructions[count]? with
  | some instruction => instruction.fault? layout next (behind.foldl Instruction.perform store)
  | none => listing.ending.fault? next

private theorem stop?_cons_succ (layout : Layout) (address : Int) (store : Store) (instruction : Instruction)
    (instructions : List Instruction) (ending : Ending) (count : Nat) :
    stop? layout address store ⟨instruction :: instructions, ending⟩ (count + 1) =
      stop? layout (address + instruction.toBytes.length) (instruction.perform store) ⟨instructions, ending⟩
        count := by
  simp only [stop?, List.take_succ_cons, List.flatMap_cons, List.length_append, List.foldl_cons,
    List.getElem?_cons_succ, Int.natCast_add, Int.add_assoc]

/-- The execution of a listing stops at the first instruction that does not complete, or behind the last. -/
theorem execute_stops {layout : Layout} {store : Store} (hroom : store.pushed.length ≤ layout.capacity)
    (address : Int) (listing : Listing) :
    let account := listing.execute layout address store
    account.completed ≤ listing.instructions.length ∧
      (∀ count < account.completed, listing.stop? layout address store count = none) ∧
      account.fault = listing.stop? layout address store account.completed ∧
      (account.completed < listing.instructions.length → account.fault ≠ none) ∧
      account.store.registers =
        ((listing.instructions.take account.completed).foldl Instruction.perform store).registers := by
  obtain ⟨instructions, ending⟩ := listing
  simp only [execute]
  induction instructions generalizing address store with
  | nil =>
    refine ⟨Nat.le_refl 0, fun count h => absurd h (Nat.not_lt_zero count), ?_,
      fun h => absurd h (Nat.lt_irrefl 0), rfl⟩
    simp [stop?, Account.ofInstructions]
  | cons instruction instructions ih =>
    have hfirst : stop? layout address store ⟨instruction :: instructions, ending⟩ 0 =
        instruction.fault? layout address store := by simp [stop?]
    cases hfault : instruction.fault? layout address store with
    | some fault =>
      rw [hfault] at hfirst
      rw [Account.ofInstructions_of_fault hfault]
      exact ⟨Nat.zero_le _, fun count h => absurd h (Nat.not_lt_zero count), hfirst.symm,
        fun _ => Option.some_ne_none fault, Instruction.registers_effect_of_fault hfault⟩
    | none =>
      have heffect := Instruction.effect_of_completes hroom hfault
      have hroom' := Instruction.pushed_effect_le layout hroom instruction
      rw [Account.ofInstructions_of_completes hfault, heffect]
      rw [heffect] at hroom'
      obtain ⟨hle, hbefore, hstop, hne, hregisters⟩ := ih hroom' (address + instruction.toBytes.length)
      refine ⟨Nat.succ_le_succ hle, ?_, ?_, fun h => hne (Nat.lt_of_succ_lt_succ h), ?_⟩
      · intro count hcount
        cases count with
        | zero => rw [hfirst, hfault]
        | succ count =>
          rw [stop?_cons_succ]
          exact hbefore count (Nat.lt_of_succ_lt_succ hcount)
      · rw [stop?_cons_succ, ← hstop]
      · rw [List.take_succ_cons, List.foldl_cons, ← hregisters]

end Listing

end RegisterMachine
