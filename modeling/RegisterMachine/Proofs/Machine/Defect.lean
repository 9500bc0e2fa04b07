import RegisterMachine.Proofs.Machine.Effect

/-!
# Defects

What is wrong with a program as far as its bytes tell, without running it.  An instruction is defective if it names a
register that does not exist or is one push too many, and an ending if it is not a clean one.  A listing has no defect
exactly if it ends cleanly, all registers that it names exist, and the stack has room for all its pushes
(`Listing.forall_defect?_eq_none_iff`).  Its execution stops at the first defect and reports it (`Listing.stop?_eq`).
The words that a program loads have no part in this (`Listing.defect?_outline`).
-/

namespace RegisterMachine

/-- What can be wrong with an instruction or an ending. -/
inductive Defect where
  | unassigned (byte : UInt8)
  | cutShort (op : Opcode)
  | missing (op : Opcode) (register : UInt8)
  | overfull (source : UInt8)
deriving DecidableEq, Repr

/-- The fault that a defect at the given address is reported as.  The registers are those in front of it. -/
def Defect.fault (layout : Layout) (address : Int) (registers : Array Word) : Defect → Fault
  | unassigned byte => .invalidOpcode byte address
  | cutShort op => .truncatedOperand op address
  | missing op register => .registerOutOfRange op address register registers.size
  | overfull source =>
    .stackWrite source (registers.getD source.toNat 0)
      (.outOfBounds (layout.stackLimit - 1) layout.stackLimit layout.stackBase)

namespace Ending

def defect? : Ending → Option Defect
  | complete => none
  | unassigned byte => some (.unassigned byte)
  | cutShort op => some (.cutShort op)

theorem defect?_eq_none_iff {ending : Ending} : ending.defect? = none ↔ ending = complete := by
  cases ending <;> simp [defect?]

theorem fault?_eq (layout : Layout) (address : Int) (registers : Array Word) (ending : Ending) :
    ending.fault? address = ending.defect?.map (Defect.fault layout address registers) := by
  cases ending <;> rfl

end Ending

namespace Instruction

def isPush : Instruction → Bool
  | push _ => true
  | _ => false

/-- The defect of an instruction behind a number of pushes, if there are `count` registers and the stack has room for
so many bytes. -/
def defect? (count room pushes : Nat) (instruction : Instruction) : Option Defect :=
  match instruction.missing? count with
  | some register => some (.missing instruction.opcode register)
  | none =>
    match instruction with
    | push source => if room < 4 * (pushes + 1) then some (.overfull source) else none
    | _ => none

theorem missing?_eq_none_iff {instruction : Instruction} {count : Nat} :
    instruction.missing? count = none ↔ ∀ register ∈ instruction.named, register.toNat < count := by
  simp only [missing?, List.find?_eq_none, decide_eq_true_eq, Nat.not_le]

theorem defect?_eq_none_iff {count room pushes : Nat} {instruction : Instruction} :
    instruction.defect? count room pushes = none ↔
      (∀ register ∈ instruction.named, register.toNat < count) ∧
        (instruction.isPush = true → 4 * (pushes + 1) ≤ room) := by
  rw [← missing?_eq_none_iff]
  unfold defect?
  cases instruction.missing? count with
  | some register => simp
  | none => cases instruction <;> simp [isPush]

/-- The bytes pushed are four for every push. -/
theorem length_pushed_foldl_perform (instructions : List Instruction) (store : Store) :
    (instructions.foldl perform store).pushed.length = store.pushed.length + 4 * instructions.countP isPush := by
  induction instructions generalizing store with
  | nil => rfl
  | cons instruction instructions ih =>
    rw [List.foldl_cons, ih, List.countP_cons, perform, List.length_append]
    cases instruction with
    | push source =>
      simp only [output, isPush, Word.length_toBytes, if_true]
      omega
    | _ => simp [output, isPush]

theorem size_foldl_update (instructions : List Instruction) (registers : Array Word) :
    (instructions.foldl (fun registers instruction => instruction.update registers) registers).size =
      registers.size := by
  induction instructions generalizing registers with
  | nil => rfl
  | cons instruction instructions ih => rw [List.foldl_cons, ih, size_update]

/-- An instruction ends in the fault that its defect is reported as. -/
theorem fault?_eq {layout : Layout} {store : Store} {pushes : Nat} (hpushed : store.pushed.length = 4 * pushes)
    (address : Int) (instruction : Instruction) :
    instruction.fault? layout address store =
      (instruction.defect? store.registers.size layout.capacity pushes).map
        (Defect.fault layout address store.registers) := by
  unfold fault? defect?
  cases instruction.missing? store.registers.size with
  | some register => rfl
  | none =>
    cases instruction with
    | push source =>
      simp only [overflow?, hpushed, Nat.mul_add_one]
      split <;> rfl
    | _ => rfl

/-- The instruction without the word that it loads. -/
def outline : Instruction → Instruction
  | setReg dest _ => setReg dest 0
  | instruction => instruction

theorem defect?_outline (count room pushes : Nat) (instruction : Instruction) :
    instruction.outline.defect? count room pushes = instruction.defect? count room pushes := by
  cases instruction <;> rfl

theorem isPush_outline (instruction : Instruction) : instruction.outline.isPush = instruction.isPush := by
  cases instruction <;> rfl

theorem length_toBytes_outline (instruction : Instruction) :
    instruction.outline.toBytes.length = instruction.toBytes.length := by
  cases instruction <;> rfl

end Instruction

namespace Listing

/-- The defect of the instruction behind the given number of others, or of the ending if there is none. -/
def defect? (count room : Nat) (listing : Listing) (index : Nat) : Option Defect :=
  match listing.instructions[index]? with
  | some instruction => instruction.defect? count room ((listing.instructions.take index).countP Instruction.isPush)
  | none => listing.ending.defect?

/-- The execution of a listing stops for the first defect. -/
theorem stop?_eq (layout : Layout) (address : Int) (registers : Array Word) (listing : Listing) (index : Nat) :
    listing.stop? layout address ⟨registers, []⟩ index =
      (listing.defect? registers.size layout.capacity index).map
        (Defect.fault layout (address + listing.offset index)
          ((listing.instructions.take index).foldl (fun registers instruction => instruction.update registers)
            registers)) := by
  have hpushed := Instruction.length_pushed_foldl_perform (listing.instructions.take index) ⟨registers, []⟩
  have hregisters := Instruction.registers_foldl_perform (listing.instructions.take index) ⟨registers, []⟩
  have hsize := Instruction.size_foldl_update (listing.instructions.take index) registers
  rw [List.length_nil, Nat.zero_add] at hpushed
  unfold stop? defect?
  dsimp only
  cases listing.instructions[index]? with
  | some instruction =>
    dsimp only
    rw [Instruction.fault?_eq hpushed, hregisters, hsize]
    rfl
  | none => exact listing.ending.fault?_eq layout _ _

/-- Without a defect among them, the instructions up to any point push no more than there is room for. -/
private theorem countP_take_le {count room : Nat} {listing : Listing}
    (h : ∀ index, listing.defect? count room index = none) (index : Nat) :
    4 * (listing.instructions.take index).countP Instruction.isPush ≤ room := by
  induction index with
  | zero => exact Nat.zero_le _
  | succ index ih =>
    have hdefect := h index
    rw [List.take_add_one, List.countP_append]
    rw [defect?] at hdefect
    cases hget : listing.instructions[index]? with
    | none => simpa using ih
    | some instruction =>
      rw [hget] at hdefect
      have hroom := (Instruction.defect?_eq_none_iff.1 hdefect).2
      rw [Option.toList_some, List.countP_singleton]
      split
      · rename_i hpush
        exact hroom hpush
      · exact ih

/-- A listing is free of defects exactly if it ends cleanly, the registers named exist, and there is room for all
pushes. -/
theorem forall_defect?_eq_none_iff {count room : Nat} {listing : Listing} :
    (∀ index, listing.defect? count room index = none) ↔
      listing.ending = .complete ∧
        (∀ instruction ∈ listing.instructions, ∀ register ∈ instruction.named, register.toNat < count) ∧
        4 * listing.instructions.countP Instruction.isPush ≤ room := by
  constructor
  · intro h
    refine ⟨?_, ?_, ?_⟩
    · have hdefect := h listing.instructions.length
      rw [defect?, List.getElem?_eq_none (Nat.le_refl _)] at hdefect
      exact Ending.defect?_eq_none_iff.1 hdefect
    · intro instruction hmem
      obtain ⟨index, hget⟩ := List.mem_iff_getElem?.1 hmem
      have hdefect := h index
      rw [defect?, hget] at hdefect
      exact (Instruction.defect?_eq_none_iff.1 hdefect).1
    · have hroom := countP_take_le h listing.instructions.length
      rwa [List.take_length] at hroom
  · rintro ⟨hending, hnamed, hroom⟩ index
    rw [defect?]
    cases hget : listing.instructions[index]? with
    | none => exact Ending.defect?_eq_none_iff.2 hending
    | some instruction =>
      refine Instruction.defect?_eq_none_iff.2 ⟨hnamed instruction (List.mem_of_getElem? hget), fun hpush => ?_⟩
      -- The push is among the first `index + 1` instructions, which push no more than all of them.
      have hle := (List.take_sublist (index + 1) listing.instructions).countP_le (p := Instruction.isPush)
      rw [List.take_add_one, hget, List.countP_append, Option.toList_some, List.countP_singleton, if_pos hpush] at hle
      omega

/-- Bytes are free of defects exactly if they split into instructions, the registers that these name exist, and there
is room for all their pushes. -/
theorem forall_defect?_ofBytes_eq_none_iff {count room : Nat} {bytes : List UInt8} :
    (∀ index, (ofBytes bytes).defect? count room index = none) ↔
      ∃ instructions : List Instruction, bytes = instructions.flatMap Instruction.toBytes ∧
        (∀ instruction ∈ instructions, ∀ register ∈ instruction.named, register.toNat < count) ∧
        4 * instructions.countP Instruction.isPush ≤ room := by
  rw [forall_defect?_eq_none_iff]
  constructor
  · rintro ⟨hending, hnamed, hroom⟩
    obtain ⟨tail, hfits, htail⟩ := exists_tail_ofBytes bytes
    rw [hending] at hfits
    cases hfits
    rw [List.append_nil] at htail
    exact ⟨_, htail, hnamed, hroom⟩
  · rintro ⟨instructions, rfl, hnamed, hroom⟩
    have hlisting := ofBytes_append instructions []
    rw [List.append_nil, ofBytes_nil, List.append_nil] at hlisting
    rw [hlisting]
    exact ⟨rfl, hnamed, hroom⟩

/-- The listing without the words that it loads. -/
def outline (listing : Listing) : Listing := ⟨listing.instructions.map Instruction.outline, listing.ending⟩

theorem defect?_outline (count room : Nat) (listing : Listing) (index : Nat) :
    listing.outline.defect? count room index = listing.defect? count room index := by
  have hpushes : ((listing.instructions.map Instruction.outline).take index).countP Instruction.isPush =
      (listing.instructions.take index).countP Instruction.isPush := by
    rw [← List.map_take, List.countP_map]
    exact List.countP_congr fun instruction _ => by rw [Function.comp_apply, Instruction.isPush_outline]
  unfold defect? outline
  dsimp only
  rw [List.getElem?_map, hpushes]
  cases listing.instructions[index]? with
  | none => rfl
  | some instruction => exact Instruction.defect?_outline count room _ instruction

theorem offset_outline (listing : Listing) (index : Nat) : listing.outline.offset index = listing.offset index := by
  unfold offset outline
  dsimp only
  rw [← List.map_take, List.length_flatMap, List.length_flatMap, List.map_map]
  congr 2
  funext instruction
  exact instruction.length_toBytes_outline

theorem reach_outline (size : Nat) (listing : Listing) (index : Nat) :
    listing.outline.reach size index = listing.reach size index := by
  unfold reach
  rw [offset_outline, outline]
  dsimp only
  rw [List.getElem?_map]
  cases listing.instructions[index]? with
  | none => rfl
  | some instruction =>
    rw [Option.map_some]
    dsimp only
    rw [instruction.length_toBytes_outline]

end Listing

end RegisterMachine
