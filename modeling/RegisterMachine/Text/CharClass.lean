/-!
# Character classes

The classes of characters that the reader of source text tells apart.  Blanks are the characters with the Unicode
property White_Space; every other class holds ASCII characters only.
-/

namespace RegisterMachine

/-- The 25 code points with the Unicode property White_Space. -/
def isBlank (c : Char) : Bool :=
  let n := c.toNat
  (0x09 ≤ n && n ≤ 0x0D) || n == 0x20 || n == 0x85 || n == 0xA0 || n == 0x1680 || (0x2000 ≤ n && n ≤ 0x200A) ||
    n == 0x2028 || n == 0x2029 || n == 0x202F || n == 0x205F || n == 0x3000

/-- The value of a hex digit of either case. -/
def hexValue? (c : Char) : Option Nat :=
  if c.isDigit then some (c.toNat - 48)
  else if 'a' ≤ c ∧ c ≤ 'f' then some (c.toNat - 87)
  else if 'A' ≤ c ∧ c ≤ 'F' then some (c.toNat - 55)
  else none

def isHexDigit (c : Char) : Bool := (hexValue? c).isSome

/-- The characters that a name may start with: ASCII letters, underscore and dot. -/
def isNameStart (c : Char) : Bool := c.isAlpha || c == '_' || c == '.'

/-- The characters that a name may go on with. -/
def isNameRest (c : Char) : Bool := isNameStart c || c.isDigit

/-- Equality of texts up to the case of ASCII letters. -/
def sameLetters (s t : String) : Bool := s.toList.map Char.toLower == t.toList.map Char.toLower

/-- Every character that counts as whitespace in the core library is blank. -/
theorem isBlank_of_isWhitespace {c : Char} (h : c.isWhitespace = true) : isBlank c = true := by
  simp only [Char.isWhitespace, Bool.or_eq_true, decide_eq_true_eq] at h
  rcases h with ((rfl | rfl) | rfl) | rfl <;> decide

example : isBlank '\u00a0' = true ∧ isBlank '\u200b' = false := by decide

theorem hexValue?_lt {c : Char} {n : Nat} (h : hexValue? c = some n) : n < 16 := by
  unfold hexValue? at h
  split at h
  · rename_i hd
    simp only [Char.isDigit, Bool.and_eq_true, decide_eq_true_eq] at hd
    have h9 : c.toNat ≤ 57 := hd.2
    cases h; omega
  · split at h
    · rename_i hl
      have hf : c.toNat ≤ 102 := hl.2
      cases h; omega
    · split at h
      · rename_i hl
        have hf : c.toNat ≤ 70 := hl.2
        cases h; omega
      · cases h

end RegisterMachine
