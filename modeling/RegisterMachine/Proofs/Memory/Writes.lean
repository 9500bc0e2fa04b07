import RegisterMachine.Proofs.Memory.Contents

/-!
# Writes

Bytes written to memory one after the other, to any addresses.  A write to the stack or to the heap succeeds within
the bounds of its region and nowhere else (`Memory.Write.exists_perform`, `Memory.Write.perform_of_not_inside`), and
then it changes what one address holds.  After any writes an address of the program holds its byte, and any other holds
the last byte that was written to it with success (`Memory.read_afterWrites`).
-/

namespace RegisterMachine.Memory

/-- A byte to write, and the region it is meant for. -/
inductive Write where
  | stack (address : Int) (byte : UInt8)
  | heap (address : Int) (byte : UInt8)
deriving DecidableEq, Repr

namespace Write

def address : Write → Int
  | stack address _ => address
  | heap address _ => address

def byte : Write → UInt8
  | stack _ byte => byte
  | heap _ byte => byte

def perform (memory : Memory) : Write → Except MemoryError Memory
  | stack address byte => memory.writeStack address byte
  | heap address byte => memory.writeHeap address byte

/-- The address lies in the region that the byte is meant for. -/
def Inside (layout : Layout) : Write → Prop
  | stack address _ => layout.stackLimit ≤ address ∧ address ≤ layout.stackBase
  | heap address _ => layout.heapStart ≤ address ∧ address < layout.stackLimit

/-- Why a byte cannot be written to an address outside the region. -/
def refusal (layout : Layout) : Write → MemoryError
  | stack address _ => .outOfBounds address layout.stackLimit layout.stackBase
  | heap address _ =>
    if layout.instructionsStart ≤ address ∧ address < layout.instructionsEnd then .readOnly address
    else .outOfBounds address layout.heapStart (layout.stackLimit - 1)

theorem refusal_ne_layout (layout : Layout) (write : Write) : write.refusal layout ≠ .layout := by
  unfold refusal
  split
  · exact nofun
  · split <;> exact nofun

variable {memory : Memory} {write : Write}

theorem exists_perform (h : memory.Fits) (hinside : write.Inside memory.layout) :
    ∃ next, write.perform memory = .ok next ∧ next.layout = memory.layout ∧ next.program = memory.program ∧
      ∀ address, next.contents address =
        if address = write.address then some write.byte else memory.contents address := by
  cases write with
  | stack address byte =>
    obtain ⟨hlow, hhigh⟩ := hinside
    obtain ⟨hlowest, hend, hheap, hlimit, -, hhighest⟩ := Layout.Fits.bounds h
    exact ⟨_, writeStack_eq hlow hhigh (by omega), rfl, rfl, contents_put h hlow hhigh byte⟩
  | heap address byte =>
    have hregion := (Layout.Fits.regionOf_eq_heap_iff h).2 hinside
    refine ⟨{ memory with heap := memory.heap.insert address byte }, ?_, rfl, rfl, contents_insert hregion byte⟩
    rw [perform, writeHeap, hregion]

theorem perform_of_not_inside (h : memory.Fits) (houtside : ¬write.Inside memory.layout) :
    write.perform memory = .error (write.refusal memory.layout) := by
  cases write with
  | stack address byte => exact if_neg houtside
  | heap address byte =>
    rw [Inside, ← Layout.Fits.regionOf_eq_heap_iff h] at houtside
    simp only [perform, writeHeap, refusal, ← Layout.regionOf_eq_instructions_iff]
    cases hregion : memory.layout.regionOf address with
    | heap => exact absurd hregion houtside
    | _ => rfl

theorem exists_perform_iff (h : memory.Fits) (write : Write) :
    (∃ next, write.perform memory = .ok next) ↔ write.Inside memory.layout := by
  constructor
  · rintro ⟨next, hnext⟩
    by_cases hinside : write.Inside memory.layout
    · exact hinside
    · rw [perform_of_not_inside h hinside] at hnext
      cases hnext
  · intro hinside
    obtain ⟨next, hnext, -⟩ := exists_perform h hinside
    exact ⟨next, hnext⟩

/-- A write that succeeds changes what one address holds. -/
theorem effect_of_perform {next : Memory} (h : memory.Fits) (hnext : write.perform memory = .ok next) :
    next.layout = memory.layout ∧ next.program = memory.program ∧
      ∀ address, next.contents address =
        if address = write.address then some write.byte else memory.contents address := by
  obtain ⟨other, hother, heffect⟩ := exists_perform h ((exists_perform_iff h write).1 ⟨next, hnext⟩)
  rw [hnext] at hother
  cases hother
  exact heffect

theorem eq_refusal_of_perform {cause : MemoryError} (h : memory.Fits) (hcause : write.perform memory = .error cause) :
    cause = write.refusal memory.layout := by
  by_cases hinside : write.Inside memory.layout
  · obtain ⟨next, hnext, -⟩ := exists_perform h hinside
    rw [hnext] at hcause
    cases hcause
  · rw [perform_of_not_inside h hinside] at hcause
    cases hcause
    rfl

end Write

/-! ### Histories -/

variable {memory : Memory}

/-- The memory behind a write, whether it succeeds or not. -/
def afterWrite (memory : Memory) (write : Write) : Memory :=
  match write.perform memory with
  | .ok next => next
  | .error _ => memory

def afterWrites (memory : Memory) (writes : List Write) : Memory := writes.foldl afterWrite memory

/-- Those of the writes that succeed, one after the other. -/
def succeeding (memory : Memory) : List Write → List Write
  | [] => []
  | write :: writes =>
    match write.perform memory with
    | .ok next => write :: next.succeeding writes
    | .error _ => memory.succeeding writes

/-- The byte of the last write to the address that succeeds. -/
def lastByte? (memory : Memory) (writes : List Write) (address : Int) : Option UInt8 :=
  ((memory.succeeding writes).reverse.find? fun write => write.address == address).map Write.byte

theorem lastByte?_cons_of_ok {next : Memory} {write : Write} (h : write.perform memory = .ok next)
    (writes : List Write) (address : Int) :
    memory.lastByte? (write :: writes) address =
      (next.lastByte? writes address).or (if address = write.address then some write.byte else none) := by
  have hsucceeding : memory.succeeding (write :: writes) = write :: next.succeeding writes := by
    rw [succeeding, h]
  rw [lastByte?, hsucceeding, List.reverse_cons, List.find?_append, Option.map_or, List.find?_singleton, lastByte?]
  congr 1
  by_cases heq : address = write.address
  · simp [heq]
  · simp [heq, Ne.symm heq]

theorem lastByte?_cons_of_error {write : Write} {cause : MemoryError} (h : write.perform memory = .error cause)
    (writes : List Write) (address : Int) :
    memory.lastByte? (write :: writes) address = memory.lastByte? writes address := by
  have hsucceeding : memory.succeeding (write :: writes) = memory.succeeding writes := by
    rw [succeeding, h]
  rw [lastByte?, hsucceeding, lastByte?]

/-- Writes keep the regions and the program, and each address holds the last byte written to it, or what it held
before. -/
theorem contents_afterWrites (h : memory.Fits) (writes : List Write) :
    (memory.afterWrites writes).layout = memory.layout ∧ (memory.afterWrites writes).program = memory.program ∧
      ∀ address, (memory.afterWrites writes).contents address =
        (memory.lastByte? writes address).or (memory.contents address) := by
  induction writes generalizing memory with
  | nil => exact ⟨rfl, rfl, fun _ => rfl⟩
  | cons write writes ih =>
    have hstep : memory.afterWrites (write :: writes) = (memory.afterWrite write).afterWrites writes := rfl
    rw [hstep, afterWrite]
    cases hperform : write.perform memory with
    | ok next =>
      obtain ⟨hlayout, hprogram, hcontents⟩ := Write.effect_of_perform h hperform
      obtain ⟨hlayout', hprogram', hcontents'⟩ := ih (h.of_eq hlayout hprogram)
      refine ⟨hlayout'.trans hlayout, hprogram'.trans hprogram, fun address => ?_⟩
      rw [hcontents', hcontents, lastByte?_cons_of_ok hperform, Option.or_assoc]
      congr 1
      split <;> rfl
    | error cause =>
      obtain ⟨hlayout', hprogram', hcontents'⟩ := ih h
      refine ⟨hlayout', hprogram', fun address => ?_⟩
      rw [hcontents', lastByte?_cons_of_error hperform]

/-- Memory is a map from addresses to bytes.  Whatever was written, and in whatever order, an address of the program
holds the byte of the program, and any other address holds the last byte that was written to it with success, or
nothing.  The next write succeeds exactly inside its region, and changes no other address.  If it fails, it names the
bounds of the region or that the program cannot be written, and changes nothing.  No access fails for want of a
layout. -/
theorem read_afterWrites {program : Array UInt8} {config : Config} {memory : Memory}
    (h : ofProgram program config = .ok memory) (writes : List Write) :
    let layout := memory.layout
    let now := memory.afterWrites writes
    (∀ address, layout.instructionsStart ≤ address → address < layout.instructionsEnd →
      ∃ byte, program[(address - layout.instructionsStart).toNat]? = some byte ∧ now.read address = .ok byte) ∧
    (∀ address, ¬(layout.instructionsStart ≤ address ∧ address < layout.instructionsEnd) →
      now.read address = match memory.lastByte? writes address with
        | some byte => .ok byte
        | none => .error (.unmapped address)) ∧
    (∀ address byte, (∃ next, now.writeStack address byte = .ok next) ↔
      layout.stackLimit ≤ address ∧ address ≤ layout.stackBase) ∧
    (∀ address byte, (∃ next, now.writeHeap address byte = .ok next) ↔
      layout.heapStart ≤ address ∧ address < layout.stackLimit) ∧
    (∀ write next, Write.perform now write = .ok next →
      next.read write.address = .ok write.byte ∧
        ∀ address, address ≠ write.address → next.read address = now.read address) ∧
    (∀ write cause, Write.perform now write = .error cause →
      cause = write.refusal layout ∧ cause ≠ .layout ∧
        ∀ address, (now.afterWrite write).read address = now.read address) ∧
    ∀ address, now.read address ≠ .error .layout := by
  intro layout now
  obtain ⟨hfits, rfl, hheap, hstack⟩ := fits_of_ofProgram h
  obtain ⟨hlayout, hprogram, hcontents⟩ := contents_afterWrites hfits writes
  have hnow : now.Fits := hfits.of_eq hlayout hprogram
  have hregion : now.layout = layout := hlayout
  refine ⟨?_, ?_, ?_, ?_, ?_, ?_, ?_⟩
  · intro address hlow hhigh
    have hread := read_of_program hnow address
    rw [hregion, hprogram] at hread
    exact hread hlow hhigh
  · intro address houtside
    -- Memory that holds only a program has no other contents.
    have hempty : memory.contents address = none := by
      rw [← Layout.regionOf_eq_instructions_iff] at houtside
      unfold contents
      split
      · exact absurd ‹_› houtside
      · rw [hheap]
        exact Std.TreeMap.getElem?_emptyc
      · rw [hstack]
        rfl
      · rfl
    rw [read_eq_found hnow, hcontents, hempty, Option.or_none]
    cases memory.lastByte? writes address <;> rfl
  · intro address byte
    rw [← hregion]
    exact Write.exists_perform_iff hnow (.stack address byte)
  · intro address byte
    rw [← hregion]
    exact Write.exists_perform_iff hnow (.heap address byte)
  · intro write next hnext
    obtain ⟨hlayout', hprogram', hcontents'⟩ := Write.effect_of_perform hnow hnext
    have hnext' := hnow.of_eq hlayout' hprogram'
    refine ⟨?_, fun address hne => ?_⟩
    · rw [read_eq_found hnext', hcontents', if_pos rfl]
      rfl
    · rw [read_eq_found hnext', hcontents', if_neg hne, read_eq_found hnow]
  · intro write cause hcause
    have hrefusal := Write.eq_refusal_of_perform hnow hcause
    rw [hregion] at hrefusal
    refine ⟨hrefusal, ?_, fun address => ?_⟩
    · rw [hrefusal]
      exact write.refusal_ne_layout layout
    · rw [afterWrite, hcause]
  · intro address
    rw [read_eq_found hnow]
    exact found_ne_layout _ _

/-- The heap begins without a gap behind the program.  The lowest byte of the stack is written first and twice, which
leaves a hole below the base; the program and the byte below the stack cannot be written. -/
theorem read_afterWrites_hole :
    ∃ memory, ofProgram #[7, 9] { stackSize := 3, heapGap := 0 } = .ok memory ∧
      memory.layout = ⟨1024, 1026, 1026, 2147482623, 2147482620⟩ ∧
      let now := memory.afterWrites [.stack 2147482620 5, .heap 1026 8, .heap 1025 3, .stack 2147482623 1,
        .stack 2147482619 2, .stack 2147482620 6]
      now.read 1026 = .ok 8 ∧ now.read 2147482620 = .ok 6 ∧
        now.read 2147482621 = .error (.unmapped 2147482621) ∧
        (∃ byte, #[(7 : UInt8), 9][1]? = some byte ∧ now.read 1025 = .ok byte) ∧
        ¬∃ next, now.writeStack 2147482619 2 = .ok next := by
  obtain ⟨memory, h⟩ : ∃ memory, ofProgram #[7, 9] { stackSize := 3, heapGap := 0 } = .ok memory := ⟨_, rfl⟩
  have hlayout : memory.layout = ⟨1024, 1026, 1026, 2147482623, 2147482620⟩ := by
    cases h
    rfl
  obtain ⟨hprogram, hread, hstack, -⟩ := read_afterWrites h [.stack 2147482620 5, .heap 1026 8, .heap 1025 3,
    .stack 2147482623 1, .stack 2147482619 2, .stack 2147482620 6]
  rw [hlayout] at hprogram hread hstack
  refine ⟨memory, h, hlayout, ?_, ?_, ?_, hprogram 1025 (by decide) (by decide), ?_⟩
  · rw [hread 1026 (by decide)]
    cases h
    rfl
  · rw [hread 2147482620 (by decide)]
    cases h
    rfl
  · rw [hread 2147482621 (by decide)]
    cases h
    rfl
  · rw [hstack]
    decide

end RegisterMachine.Memory
