import RegisterMachine.Machine.Execution

/-!
# Progress

No action of a machine moves the regions of memory or takes the instruction pointer back, whether it ends in a fault
or not (`moves_step`).  An executed instruction leaves fewer program bytes (`remaining_lt_of_step`), which is why
every run ends.
-/

namespace RegisterMachine

namespace Execution

/-- The machine that an action leaves behind, with or without a fault. -/
def after {α : Type} (action : Execution α) (machine : Machine) : Machine :=
  match action.run machine with
  | .ok _ last => last
  | .error _ last => last

theorem after_of_ok {α : Type} {action : Execution α} {value : α} {machine last : Machine}
    (h : action.run machine = .ok value last) : action.after machine = last := by
  rw [after, h]

theorem after_of_error {α : Type} {action : Execution α} {fault : Fault} {machine last : Machine}
    (h : action.run machine = .error fault last) : action.after machine = last := by
  rw [after, h]

/-- The relation holds between every machine and the machine that the action leaves behind. -/
def Respects (r : Machine → Machine → Prop) {α : Type} (action : Execution α) : Prop :=
  ∀ machine, r machine (action.after machine)

theorem Respects.pure {r : Machine → Machine → Prop} (refl : ∀ m, r m m) {α : Type} (a : α) :
    Respects r (Pure.pure a : Execution α) := refl

theorem Respects.throw {r : Machine → Machine → Prop} (refl : ∀ m, r m m) {α : Type} (fault : Fault) :
    Respects r (MonadExcept.throw fault : Execution α) := refl

theorem Respects.bind {r : Machine → Machine → Prop} (trans : ∀ a b c, r a b → r b c → r a c) {α β : Type}
    {action : Execution α} {next : α → Execution β} (h : Respects r action) (hn : ∀ a, Respects r (next a)) :
    Respects r (action >>= next) := by
  intro machine
  have h₁ := h machine
  unfold after at h₁ ⊢
  simp only [EStateM.run, Bind.bind, EStateM.bind] at h₁ ⊢
  cases hm : action machine with
  | error fault last => simpa [hm] using h₁
  | ok a last =>
    have h₂ := hn a last
    unfold after at h₂
    rw [hm] at h₁
    exact trans _ _ _ h₁ h₂

/-- The regions stay where they are and the instruction pointer does not move back. -/
def Moves (before after : Machine) : Prop :=
  after.memory.layout = before.memory.layout ∧ before.instructionPointer ≤ after.instructionPointer

theorem Moves.refl (machine : Machine) : Moves machine machine := ⟨rfl, Int.le_refl _⟩

theorem Moves.trans (a b c : Machine) (h₁ : Moves a b) (h₂ : Moves b c) : Moves a c :=
  ⟨h₂.1.trans h₁.1, Int.le_trans h₁.2 h₂.2⟩

theorem run_fetch (machine : Machine) : fetch.run machine =
    if machine.isHalted then .ok none machine
    else match machine.memory.read machine.instructionPointer with
      | .error cause => .error (.memory cause) machine
      | .ok byte =>
        match address? (machine.instructionPointer + 1) with
        | none => .error .addressOverflow machine
        | some next => .ok (some byte) { machine with instructionPointer := next } := by
  cases hh : machine.isHalted <;> cases hr : machine.memory.read machine.instructionPointer <;>
    cases ha : address? (machine.instructionPointer + 1) <;>
    simp [fetch, hh, hr, ha, MonadExcept.ofExcept] <;> rfl

theorem moves_fetch : Respects Moves fetch := by
  intro machine
  unfold after
  rw [run_fetch]
  cases machine.isHalted with
  | true => exact Moves.refl machine
  | false =>
    cases machine.memory.read machine.instructionPointer with
    | error cause => exact Moves.refl machine
    | ok byte =>
      cases h : address? (machine.instructionPointer + 1) with
      | none => exact Moves.refl machine
      | some next =>
        have hn := (address?_eq_some_iff.1 h).1
        exact ⟨rfl, show machine.instructionPointer ≤ next by omega⟩

theorem moves_fetchOperand (op : Opcode) (address : Int) : Respects Moves (fetchOperand op address) := by
  refine moves_fetch.bind Moves.trans fun byte => ?_
  cases byte with
  | none => exact .throw Moves.refl _
  | some byte => exact .pure Moves.refl _

theorem moves_fetchWord (op : Opcode) (address : Int) : Respects Moves (fetchWord op address) := by
  have h := moves_fetchOperand op address
  exact h.bind Moves.trans fun _ => h.bind Moves.trans fun _ => h.bind Moves.trans fun _ =>
    h.bind Moves.trans fun _ => .pure Moves.refl _

theorem moves_fetchInstruction (op : Opcode) (address : Int) :
    Respects Moves (fetchInstruction op address) := by
  have h := moves_fetchOperand op address
  cases op with
  | noop => exact .pure Moves.refl _
  | setReg =>
    exact h.bind Moves.trans fun _ => (moves_fetchWord _ _).bind Moves.trans fun _ => .pure Moves.refl _
  | copyReg | xor => exact h.bind Moves.trans fun _ => h.bind Moves.trans fun _ => .pure Moves.refl _
  | push => exact h.bind Moves.trans fun _ => .pure Moves.refl _

theorem moves_readRegister (op : Opcode) (address : Int) (register : UInt8) :
    Respects Moves (readRegister op address register) := by
  intro machine
  unfold after readRegister
  cases h : machine.registers[register.toNat]? <;> simp [h] <;> exact Moves.refl machine

theorem moves_modifyRegister (op : Opcode) (address : Int) (register : UInt8) (change : Word → Word) :
    Respects Moves (modifyRegister op address register change) :=
  (moves_readRegister op address register).bind Moves.trans fun _ _ => ⟨rfl, Int.le_refl _⟩

theorem moves_pushByte (register : UInt8) (value : Word) (byte : UInt8) :
    Respects Moves (pushByte register value byte) := by
  intro machine
  unfold after pushByte
  cases h : machine.memory.writeStack machine.stackTop byte with
  | error cause => simp [h]; exact Moves.refl machine
  | ok memory =>
    have hm := Memory.layout_eq_of_writeStack h
    cases ha : address? (machine.stackTop - 1) <;> simp [h, ha] <;> exact ⟨hm, Int.le_refl _⟩

theorem moves_pushWord (register : UInt8) (value : Word) : Respects Moves (pushWord register value) := by
  unfold pushWord
  induction value.toBytes with
  | nil => exact .pure Moves.refl _
  | cons byte bytes ih =>
    rw [List.forM_cons]
    exact (moves_pushByte register value byte).bind Moves.trans fun _ => ih

theorem moves_execute (address : Int) (instruction : Instruction) :
    Respects Moves (execute address instruction) := by
  cases instruction with
  | noop => exact .pure Moves.refl _
  | setReg dest value => exact moves_modifyRegister _ _ _ _
  | copyReg dest source | xor dest source =>
    exact (moves_readRegister _ _ _).bind Moves.trans fun _ => moves_modifyRegister _ _ _ _
  | push source => exact (moves_readRegister _ _ _).bind Moves.trans fun _ => moves_pushWord _ _

theorem moves_dispatch (address : Int) (byte : UInt8) : Respects Moves (dispatch address byte) := by
  unfold dispatch
  split
  · exact .throw Moves.refl _
  · exact (moves_fetchInstruction _ _).bind Moves.trans fun _ => moves_execute _ _

theorem moves_step : Respects Moves step := by
  have hget : Respects Moves (get : Execution Machine) := Moves.refl
  refine hget.bind Moves.trans fun machine => moves_fetch.bind Moves.trans fun byte => ?_
  cases byte with
  | none => exact .pure Moves.refl _
  | some byte => exact (moves_dispatch _ _).bind Moves.trans fun _ => .pure Moves.refl _

/-- An executed instruction leaves fewer program bytes to fetch. -/
theorem remaining_lt_of_step {machine last : Machine} (h : step.run machine = .ok .executed last) :
    last.remaining < machine.remaining := by
  simp only [step, EStateM.run_bind, EStateM.run_get, run_fetch] at h
  cases hh : machine.isHalted with
  | true => simp [hh] at h
  | false =>
    cases hr : machine.memory.read machine.instructionPointer with
    | error cause => simp [hh, hr] at h
    | ok byte =>
      cases ha : address? (machine.instructionPointer + 1) with
      | none => simp [hh, hr, ha] at h
      | some next =>
        have hm := moves_dispatch machine.instructionPointer byte { machine with instructionPointer := next }
        simp only [hh, hr, ha, Bool.false_eq_true, ↓reduceIte, EStateM.run_bind] at h
        unfold after at hm
        split at h
        · rename_i hd
          rw [hd] at hm
          cases h
          have hn := (address?_eq_some_iff.1 ha).1
          have hin := Layout.regionOf_eq_instructions_iff.1 (by simpa [Machine.isHalted] using hh)
          have hle : next ≤ last.instructionPointer := hm.2
          have hend : last.memory.layout = machine.memory.layout := hm.1
          simp only [Machine.remaining, hend]
          omega
        · cases h

end Execution

end RegisterMachine
