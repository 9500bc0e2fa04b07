/-!
# Addresses

Addresses are integers, and those that memory has fit in 32 bits with a sign.  Arithmetic on addresses is exact;
`address?` says whether its result is an address.
-/

namespace RegisterMachine

/-- The integer as an address, if it fits in 32 bits. -/
def address? (n : Int) : Option Int := if -2147483648 ≤ n ∧ n ≤ 2147483647 then some n else none

theorem address?_eq_some_iff {n a : Int} :
    address? n = some a ↔ n = a ∧ -2147483648 ≤ n ∧ n ≤ 2147483647 := by
  unfold address?
  split
  · rename_i h
    exact ⟨fun e => ⟨Option.some.inj e, h⟩, fun e => congrArg some e.1⟩
  · rename_i h
    exact ⟨fun e => (by cases e), fun e => absurd e.2 h⟩

end RegisterMachine
