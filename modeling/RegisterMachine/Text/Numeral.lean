import RegisterMachine.Text.CharClass

/-!
# Numerals

The value of a run of decimal digits, and the bytes that pairs of hex digits stand for.
-/

namespace RegisterMachine

/-- The value of a list of decimal digits, most significant first. -/
def decimalValue (digits : List Char) : Nat := digits.foldl (fun n c => 10 * n + (c.toNat - 48)) 0

/-- The value of a decimal numeral: one or more ASCII digits and nothing else. -/
def decimal? (text : List Char) : Option Nat :=
  if text ≠ [] ∧ text.all Char.isDigit then some (decimalValue text) else none

/-- The bytes written as pairs of hex digits, the high digit first. -/
def hexBytes? : List Char → Option (List UInt8)
  | [] => some []
  | [_] => none
  | high :: low :: rest => do
    let h ← hexValue? high
    let l ← hexValue? low
    let bytes ← hexBytes? rest
    return (16 * h + l).toUInt8 :: bytes

theorem decimal?_eq_some_iff {text : List Char} {n : Nat} :
    decimal? text = some n ↔ text ≠ [] ∧ (∀ c ∈ text, c.isDigit = true) ∧ decimalValue text = n := by
  simp only [decimal?, List.all_eq_true]
  split
  · rename_i h
    exact ⟨fun e => ⟨h.1, h.2, Option.some.inj e⟩, fun e => congrArg some e.2.2⟩
  · rename_i h
    simp only [reduceCtorEq, false_iff]
    exact fun ⟨h₁, h₂, _⟩ => h ⟨h₁, h₂⟩

example : decimal? ['0', '0', '7'] = some 7 := by decide

example : hexBytes? ['0', 'a', 'F', 'F'] = some [10, 255] := by decide

end RegisterMachine
