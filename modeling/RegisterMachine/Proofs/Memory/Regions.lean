import Mathlib.Data.Set.Basic
import Mathlib.Logic.Pairwise
import RegisterMachine.Proofs.Memory.Placement

/-!
# Regions

The regions of memory as sets of addresses.  Where the bounds of a layout lie in order, every address belongs to one
region and to no other (`Layout.Fits.mem_addresses_iff`, `Layout.Fits.pairwise_disjoint`), so a region can be found by
testing the program, the heap and the stack in any order (`Layout.Fits.regionIn_eq_regionOf`).
-/

namespace RegisterMachine.Layout

variable {layout : Layout} {length : Nat}

/-- The addresses of a region.  What belongs to no other region is unmapped. -/
def addresses (layout : Layout) : Region → Set Int
  | .instructions => {address | layout.instructionsStart ≤ address ∧ address < layout.instructionsEnd}
  | .heap => {address | layout.heapStart ≤ address ∧ address < layout.stackLimit}
  | .stack => {address | layout.stackLimit ≤ address ∧ address ≤ layout.stackBase}
  | .unmapped => {address | ¬(layout.instructionsStart ≤ address ∧ address < layout.instructionsEnd) ∧
      ¬(layout.heapStart ≤ address ∧ address < layout.stackLimit) ∧
      ¬(layout.stackLimit ≤ address ∧ address ≤ layout.stackBase)}

instance (layout : Layout) (region : Region) (address : Int) : Decidable (address ∈ layout.addresses region) :=
  match region with
  | .instructions =>
    inferInstanceAs (Decidable (layout.instructionsStart ≤ address ∧ address < layout.instructionsEnd))
  | .heap => inferInstanceAs (Decidable (layout.heapStart ≤ address ∧ address < layout.stackLimit))
  | .stack => inferInstanceAs (Decidable (layout.stackLimit ≤ address ∧ address ≤ layout.stackBase))
  | .unmapped =>
    inferInstanceAs (Decidable (¬(layout.instructionsStart ≤ address ∧ address < layout.instructionsEnd) ∧
      ¬(layout.heapStart ≤ address ∧ address < layout.stackLimit) ∧
      ¬(layout.stackLimit ≤ address ∧ address ≤ layout.stackBase)))

/-- The region that holds an address, if the regions are tested in the given order. -/
def regionIn (layout : Layout) (order : List Region) (address : Int) : Region :=
  (order.find? fun region => decide (address ∈ layout.addresses region)).getD .unmapped

/-- Every address belongs to the region it is classified as, and to no other. -/
theorem Fits.mem_addresses_iff (h : layout.Fits length) {address : Int} {region : Region} :
    address ∈ layout.addresses region ↔ layout.regionOf address = region := by
  have hinstructions : layout.regionOf address = .instructions ↔ _ := regionOf_eq_instructions_iff
  have hheap : layout.regionOf address = .heap ↔ _ := h.regionOf_eq_heap_iff
  have hstack : layout.regionOf address = .stack ↔ _ := h.regionOf_eq_stack_iff
  cases region with
  | instructions => exact hinstructions.symm
  | heap => exact hheap.symm
  | stack => exact hstack.symm
  | unmapped =>
    simp only [addresses, Set.mem_ofPred_eq, ← hinstructions, ← hheap, ← hstack]
    cases layout.regionOf address <;> simp

theorem Fits.pairwise_disjoint (h : layout.Fits length) :
    Pairwise fun first second => layout.addresses first ∩ layout.addresses second = ∅ := by
  intro first second hne
  rw [Set.eq_empty_iff_forall_notMem]
  rintro address ⟨hfirst, hsecond⟩
  rw [h.mem_addresses_iff] at hfirst hsecond
  exact hne (hfirst.symm.trans hsecond)

/-- The order of the tests does not matter. -/
theorem Fits.regionIn_eq_regionOf (h : layout.Fits length) {order : List Region} (hinstructions : .instructions ∈ order)
    (hheap : .heap ∈ order) (hstack : .stack ∈ order) (address : Int) :
    layout.regionIn order address = layout.regionOf address := by
  unfold regionIn
  cases hfind : order.find? fun region => decide (address ∈ layout.addresses region) with
  | some region =>
    have hregion := List.find?_some hfind
    rw [decide_eq_true_eq, h.mem_addresses_iff] at hregion
    exact hregion.symm
  | none =>
    -- The address would have been found in any region that is tested.
    have hnone : ∀ region ∈ order, layout.regionOf address ≠ region := by
      intro region hmem
      have htest := List.find?_eq_none.1 hfind region hmem
      rwa [decide_eq_true_eq, h.mem_addresses_iff] at htest
    cases hregion : layout.regionOf address with
    | instructions => exact absurd hregion (hnone _ hinstructions)
    | heap => exact absurd hregion (hnone _ hheap)
    | stack => exact absurd hregion (hnone _ hstack)
    | unmapped => rfl

end RegisterMachine.Layout
