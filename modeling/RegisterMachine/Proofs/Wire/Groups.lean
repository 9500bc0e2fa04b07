import RegisterMachine.Wire.Varint

/-!
# Groups of seven bits

The byte strings that stand for a number, told without the decoder (`Grouped`).  A number has many of them, which differ
in the groups of zeros at their ends.  The one that is written is the shortest (`Grouped.length_varint_le`) and the only
one of its length (`Grouped.eq_varint_iff`).
-/

namespace RegisterMachine.Wire

/-- Groups of seven bits, the lowest one first, and the number that they stand for.  The last group may be zero. -/
inductive Grouped : List UInt8 → Nat → Prop
  | last {byte : UInt8} (h : byte.toNat < 128) : Grouped [byte] byte.toNat
  | more {byte : UInt8} {bytes : List UInt8} {n : Nat} (h : 128 ≤ byte.toNat) (hrest : Grouped bytes n) :
      Grouped (byte :: bytes) (byte.toNat - 128 + 128 * n)

/-- No byte string that stands for the same number is shorter. -/
def Shortest (bytes : List UInt8) : Prop :=
  ∀ n other, Grouped bytes n → Grouped other n → bytes.length ≤ other.length

theorem varint_of_lt {n : Nat} (h : n < 128) : varint n = [n.toUInt8] := by
  rw [varint, if_pos h]

/-- A group in front of a number that is not zero is written in front of it. -/
theorem varint_add_mul {byte : UInt8} {n : Nat} (hbyte : 128 ≤ byte.toNat) (hn : 0 < n) :
    varint (byte.toNat - 128 + 128 * n) = byte :: varint n := by
  have hlt := byte.toNat_lt
  have hlow : (byte.toNat - 128 + 128 * n) % 128 + 128 = byte.toNat := by omega
  have hhigh : (byte.toNat - 128 + 128 * n) / 128 = n := by omega
  rw [varint, if_neg (by omega), hlow, hhigh, Nat.toUInt8_eq, UInt8.ofNat_toNat]

theorem grouped_varint (n : Nat) : Grouped (varint n) n := by
  induction n using Nat.strongRecOn with
  | ind n ih =>
    by_cases h : n < 128
    · have hvalue : n.toUInt8.toNat = n := UInt8.toNat_ofNat_of_lt' (Nat.lt_trans h (by decide))
      have hlast : Grouped [n.toUInt8] n.toUInt8.toNat := .last (by omega)
      rwa [hvalue, ← varint_of_lt h] at hlast
    · have hlt : n % 128 + 128 < 256 := by omega
      have hvalue : (n % 128 + 128).toUInt8.toNat = n % 128 + 128 := UInt8.toNat_ofNat_of_lt' hlt
      have hmore : Grouped ((n % 128 + 128).toUInt8 :: varint (n / 128)) _ :=
        .more (by omega) (ih (n / 128) (by omega))
      have hsum : n % 128 + 128 - 128 + 128 * (n / 128) = n := by omega
      rw [hvalue, hsum] at hmore
      rwa [varint, if_neg h]

/-! ### Numbers with a bound -/

theorem le_varintBound (top groups : Nat) : 1 ≤ varintBound top groups := by
  induction groups with
  | zero => exact Nat.le_add_left 1 top
  | succ groups ih =>
    rw [varintBound]
    omega

/-- A number below the bound is written in the groups that the bound is made for. -/
theorem length_varint_le {top groups n : Nat} (ht : top < 128) (hn : n < varintBound top groups) :
    (varint n).length ≤ groups + 1 := by
  induction groups generalizing n with
  | zero =>
    rw [varintBound] at hn
    rw [varint_of_lt (by omega)]
    exact Nat.le_refl 1
  | succ groups ih =>
    rw [varintBound] at hn
    rw [varint]
    split
    · exact Nat.le_add_left _ _
    · exact Nat.succ_le_succ (ih (by omega))

/-! ### All spellings of a number -/

namespace Grouped

variable {bytes : List UInt8} {n : Nat}

theorem length_pos (h : Grouped bytes n) : 0 < bytes.length := by
  cases h with
  | last h => exact Nat.zero_lt_one
  | more h hrest => exact Nat.succ_pos _

theorem unique {m : Nat} (hm : Grouped bytes m) (hn : Grouped bytes n) : m = n := by
  induction hm generalizing n with
  | last h =>
    cases hn with
    | last h' => rfl
    | more h' hrest => exact absurd hrest.length_pos (Nat.lt_irrefl 0)
  | more h hrest ih =>
    cases hn with
    | last h' => exact absurd hrest.length_pos (Nat.lt_irrefl 0)
    | more h' hrest' => rw [ih hrest']

theorem length_varint_le (h : Grouped bytes n) : (varint n).length ≤ bytes.length := by
  induction h with
  | last h =>
    rw [varint_of_lt h]
    exact Nat.le_refl 1
  | @more byte bytes n h hrest ih =>
    by_cases hn : 0 < n
    · rw [varint_add_mul h hn, List.length_cons, List.length_cons]
      omega
    · have hlt := byte.toNat_lt
      rw [varint_of_lt (by omega), List.length_singleton, List.length_cons]
      omega

/-- Of the length that is written there is only one. -/
theorem eq_varint_of_length_le (h : Grouped bytes n) (hle : bytes.length ≤ (varint n).length) : bytes = varint n := by
  induction h with
  | last h => rw [varint_of_lt h, Nat.toUInt8_eq, UInt8.ofNat_toNat]
  | @more byte bytes n h hrest ih =>
    by_cases hn : 0 < n
    · rw [varint_add_mul h hn, List.length_cons, List.length_cons] at hle
      rw [varint_add_mul h hn, ih (by omega)]
    · have hlt := byte.toNat_lt
      have hpos := hrest.length_pos
      rw [varint_of_lt (by omega), List.length_singleton, List.length_cons] at hle
      omega

theorem eq_varint_iff (h : Grouped bytes n) : varint n = bytes ↔ Shortest bytes := by
  constructor
  · rintro rfl m other hm hother
    rw [hm.unique (grouped_varint n)] at hother
    exact hother.length_varint_le
  · intro hshortest
    exact (h.eq_varint_of_length_le (hshortest n _ h (grouped_varint n))).symm

end Grouped

end RegisterMachine.Wire
