import RegisterMachine.Assembly.Basic

/-!
# Linking

Once all chunks are loaded, every pending reference is overwritten with the address of its label.  The addresses are
found first, so nothing is overwritten unless all of them exist.

* `size_overwrite`: overwriting keeps the length of the code.
* `getElem?_overwrite`: overwriting changes the given places and no others.
-/

namespace RegisterMachine

/-- The code with the given bytes from the given offset on. -/
def overwrite (code : Array UInt8) (offset : Nat) : List UInt8 → Array UInt8
  | [] => code
  | byte :: bytes => overwrite (code.setIfInBounds offset byte) (offset + 1) bytes

@[simp] theorem size_overwrite (code : Array UInt8) (offset : Nat) (bytes : List UInt8) :
    (overwrite code offset bytes).size = code.size := by
  induction bytes generalizing code offset with
  | nil => rfl
  | cons byte bytes ih => simp [overwrite, ih]

theorem getElem?_overwrite {code : Array UInt8} {offset : Nat} {bytes : List UInt8}
    (h : offset + bytes.length ≤ code.size) (i : Nat) :
    (overwrite code offset bytes)[i]? =
      if offset ≤ i ∧ i < offset + bytes.length then bytes[i - offset]? else code[i]? := by
  induction bytes generalizing code offset with
  | nil =>
    rw [overwrite, if_neg]
    simp only [List.length_nil]
    omega
  | cons byte bytes ih =>
    simp only [List.length_cons] at h ⊢
    rw [overwrite, ih (by simp; omega), Array.getElem?_setIfInBounds]
    by_cases hi : offset = i
    · subst hi
      have hlt : offset < code.size := by omega
      simp [hlt, show ¬offset + 1 ≤ offset by omega]
    · rw [if_neg hi]
      by_cases hlt : offset + 1 ≤ i ∧ i < offset + 1 + bytes.length
      · have e : i - offset = i - (offset + 1) + 1 := by omega
        rw [if_pos hlt, if_pos (by omega), e, List.getElem?_cons_succ]
      · rw [if_neg hlt, if_neg (by omega)]

/-- The address that a reference stands for. -/
def Assembly.target (assembly : Assembly) (reference : Reference) : Except AssemblyError Int :=
  match assembly.label? reference.name with
  | none => .error ⟨.undefinedLabel reference.name reference.chunk, some reference.line⟩
  | some offset =>
    match (address? offset).bind fun distance => address? (assembly.base + distance) with
    | some address => .ok address
    | none => .error ⟨.addressOverflow, none⟩

/-- The pending references with their addresses, or the first failure in the order of the references. -/
def Assembly.targets (assembly : Assembly) : Except AssemblyError (List (Reference × Int)) :=
  assembly.pending.toList.mapM fun reference => (assembly.target reference).map (reference, ·)

namespace Assembling

/-- Overwrites one reference with an address. -/
def patch (reference : Reference) (address : Int) : Assembling Unit := do
  let assembly ← get
  if reference.offset + 4 ≤ assembly.code.size then
    set { assembly with code := overwrite assembly.code reference.offset (Word.toBytes (.ofInt address)) }
  else throw ⟨.addressOverflow, none⟩

/-- Overwrites all pending references. -/
def resolve : Assembling Unit := do
  checkRunning
  let targets ← MonadExcept.ofExcept (← get).targets
  forM targets fun (reference, address) => patch reference address
  modify fun assembly => { assembly with pending := #[] }

/-- The finished program. -/
def emit : Assembling (Array UInt8) := do
  resolve
  return (← get).code

end Assembling

/-- The program that a single chunk of source makes, with labels that stand for their offsets. -/
def assemble (source : String) : Except AssemblyError (Array UInt8) :=
  match (do Assembling.load source; Assembling.emit).run (Assembly.empty 0) with
  | .ok program _ => .ok program
  | .error error _ => .error error

end RegisterMachine
