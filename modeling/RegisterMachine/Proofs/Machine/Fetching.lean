import RegisterMachine.Machine.Progress
import RegisterMachine.Proofs.Action
import RegisterMachine.Proofs.Machine.Match

/-!
# Fetching

A machine fetches an instruction byte by byte, and takes off the bytes in front of it what the reading of a listing
takes (`fetches_fetchInstruction`).  Where the reading finds too few bytes, the machine fetches those that are left
and fails.
-/

namespace RegisterMachine

/-- The word that the bytes start with, and the bytes behind it. -/
def Word.ofFront? : List UInt8 → Option (Word × List UInt8)
  | b₀ :: b₁ :: b₂ :: b₃ :: rest => some (Word.ofBytes b₀ b₁ b₂ b₃, rest)
  | _ => none

theorem Word.ofFront?_toBytes (w : Word) (rest : List UInt8) : ofFront? (toBytes w ++ rest) = some (w, rest) := by
  obtain ⟨b₀, b₁, b₂, b₃, h⟩ : ∃ b₀ b₁ b₂ b₃, toBytes w = [b₀, b₁, b₂, b₃] := ⟨_, _, _, _, rfl⟩
  rw [h, List.cons_append, List.cons_append, List.cons_append, List.cons_append, ofFront?, ofBytes_of_toBytes_eq h]
  rfl

namespace Execution

variable {program : Array UInt8} {layout : Layout} {machine : Machine} {store : Store} {rest : List UInt8}
variable {α β : Type}

theorem run_fetch_of_matches {byte : UInt8} (h : machine.Matches program layout (byte :: rest) store) :
    fetch.run machine = .ok (some byte) { machine with instructionPointer := machine.instructionPointer + 1 } := by
  have hpointer := h.instructionPointer_eq
  have hle := h.length_rest_le
  obtain ⟨hlow, hend, hheap, hlimit, hbase, hhigh⟩ := h.fits.bounds
  rw [List.length_cons] at hpointer hle
  have haddress : address? (machine.instructionPointer + 1) = some (machine.instructionPointer + 1) := by
    rw [address?_eq_some_iff]
    omega
  rw [run_fetch, h.isHalted_eq, h.read_instructionPointer, haddress]
  rfl

theorem run_fetch_of_matches_nil (h : machine.Matches program layout [] store) :
    fetch.run machine = .ok none machine := by
  rw [run_fetch, h.isHalted_eq]
  rfl

/-- The action fetches what the reading takes from the front of the bytes.  If they are too few for the reading, it
fetches them all and fails for want of an operand. -/
def Fetches (op : Opcode) (address : Int) (action : Execution α)
    (reading : List UInt8 → Option (α × List UInt8)) : Prop :=
  ∀ ⦃program : Array UInt8⦄ ⦃layout : Layout⦄ ⦃machine : Machine⦄ ⦃store : Store⦄ ⦃bytes : List UInt8⦄,
    machine.Matches program layout bytes store →
    match reading bytes with
    | some (value, rest) => ∃ next, action.run machine = .ok value next ∧ next.Matches program layout rest store
    | none => ∃ next, action.run machine = .error (.truncatedOperand op address) next ∧
        next.Matches program layout [] store

theorem Fetches.pure (op : Opcode) (address : Int) (value : α) :
    Fetches op address (Pure.pure value) fun bytes => some (value, bytes) :=
  fun _ _ _ _ _ h => ⟨_, rfl, h⟩

theorem Fetches.bind {op : Opcode} {address : Int} {action : Execution α} {next : α → Execution β}
    {reading : List UInt8 → Option (α × List UInt8)} {continued : α → List UInt8 → Option (β × List UInt8)}
    (h : Fetches op address action reading) (hnext : ∀ value, Fetches op address (next value) (continued value)) :
    Fetches op address (action >>= next) fun bytes => (reading bytes).bind fun pair => continued pair.1 pair.2 := by
  intro program layout machine store bytes hm
  have hfirst := h hm
  dsimp only
  cases hread : reading bytes with
  | none =>
    rw [hread] at hfirst
    obtain ⟨last, hrun, hlast⟩ := hfirst
    exact ⟨last, run_bind_of_error hrun, hlast⟩
  | some pair =>
    obtain ⟨value, rest⟩ := pair
    rw [hread] at hfirst
    obtain ⟨middle, hrun, hmiddle⟩ := hfirst
    rw [run_bind_of_ok hrun]
    exact hnext value hmiddle

private theorem fetches_fetchOperand (op : Opcode) (address : Int) :
    Fetches op address (fetchOperand op address) fun bytes => bytes.head?.map (·, bytes.tail) := by
  intro program layout machine store bytes h
  cases bytes with
  | nil => exact ⟨machine, run_bind_of_ok (run_fetch_of_matches_nil h), h⟩
  | cons byte rest => exact ⟨_, run_bind_of_ok (run_fetch_of_matches h), h.fetched⟩

theorem fetches_fetchWord (op : Opcode) (address : Int) : Fetches op address (fetchWord op address) Word.ofFront? := by
  have h := fetches_fetchOperand op address
  intro program layout machine store bytes hm
  have hall := (h.bind fun b₀ => h.bind fun b₁ => h.bind fun b₂ => h.bind fun b₃ =>
    Fetches.pure op address (Word.ofBytes b₀ b₁ b₂ b₃)) hm
  rcases bytes with _ | ⟨_, _ | ⟨_, _ | ⟨_, _ | ⟨_, _⟩⟩⟩⟩ <;> exact hall

theorem fetches_fetchInstruction (op : Opcode) (address : Int) :
    Fetches op address (fetchInstruction op address) (Instruction.ofOperands? op) := by
  have h := fetches_fetchOperand op address
  intro program layout machine store bytes hm
  cases op with
  | noop => exact Fetches.pure .noop address Instruction.noop hm
  | setReg =>
    have hall := (h.bind fun dest => (fetches_fetchWord .setReg address).bind fun value =>
      Fetches.pure .setReg address (Instruction.setReg dest value)) hm
    rcases bytes with _ | ⟨_, _ | ⟨_, _ | ⟨_, _ | ⟨_, _ | ⟨_, _⟩⟩⟩⟩⟩ <;> exact hall
  | copyReg =>
    have hall :=
      (h.bind fun dest => h.bind fun source => Fetches.pure .copyReg address (Instruction.copyReg dest source)) hm
    rcases bytes with _ | ⟨_, _ | ⟨_, _⟩⟩ <;> exact hall
  | xor =>
    have hall := (h.bind fun dest => h.bind fun source => Fetches.pure .xor address (Instruction.xor dest source)) hm
    rcases bytes with _ | ⟨_, _ | ⟨_, _⟩⟩ <;> exact hall
  | push =>
    have hall := (h.bind fun source => Fetches.pure .push address (Instruction.push source)) hm
    rcases bytes with _ | ⟨_, _⟩ <;> exact hall

end Execution

end RegisterMachine
