/-!
# Words

A register holds a word of 32 bits in two's complement.  In programs and on the stack a word is written as four
bytes, the least significant byte first.

* `Word.toBytes_ofBytes` and `Word.ofBytes_of_toBytes_eq`: reading and writing are inverse to each other.
-/

namespace RegisterMachine

/-- The content of a register. -/
abbrev Word := Int32

namespace Word

/-- The four bytes of a word in two's complement, least significant first. -/
def toBytes (w : Word) : List UInt8 :=
  let n := w.toUInt32.toNat
  [n.toUInt8, (n / 256).toUInt8, (n / 65536).toUInt8, (n / 16777216).toUInt8]

/-- The word with the given four bytes, least significant first. -/
def ofBytes (b₀ b₁ b₂ b₃ : UInt8) : Word :=
  (b₀.toNat + 256 * b₁.toNat + 65536 * b₂.toNat + 16777216 * b₃.toNat).toUInt32.toInt32

@[simp] theorem length_toBytes (w : Word) : (toBytes w).length = 4 := rfl

theorem toNat_ofBytes (b₀ b₁ b₂ b₃ : UInt8) : (ofBytes b₀ b₁ b₂ b₃).toUInt32.toNat =
    b₀.toNat + 256 * b₁.toNat + 65536 * b₂.toNat + 16777216 * b₃.toNat := by
  have h₀ := b₀.toNat_lt
  have h₁ := b₁.toNat_lt
  have h₂ := b₂.toNat_lt
  have h₃ := b₃.toNat_lt
  simp only [ofBytes, UInt32.toUInt32_toInt32, Nat.toUInt32_eq, UInt32.toNat_ofNat']
  omega

private theorem toUInt8_eq {n : Nat} {b : UInt8} (h : n % 256 = b.toNat) : n.toUInt8 = b := by
  rw [← UInt8.toNat_inj, Nat.toUInt8_eq, UInt8.toNat_ofNat']
  omega

theorem toBytes_ofBytes (b₀ b₁ b₂ b₃ : UInt8) : toBytes (ofBytes b₀ b₁ b₂ b₃) = [b₀, b₁, b₂, b₃] := by
  have h₀ := b₀.toNat_lt
  have h₁ := b₁.toNat_lt
  have h₂ := b₂.toNat_lt
  have h₃ := b₃.toNat_lt
  simp only [toBytes, toNat_ofBytes, List.cons.injEq, and_true]
  exact ⟨toUInt8_eq (by omega), toUInt8_eq (by omega), toUInt8_eq (by omega), toUInt8_eq (by omega)⟩

/-- A word is determined by its bytes: reading the four bytes it is written as gives it back. -/
theorem ofBytes_of_toBytes_eq {w : Word} {b₀ b₁ b₂ b₃ : UInt8} (h : toBytes w = [b₀, b₁, b₂, b₃]) :
    ofBytes b₀ b₁ b₂ b₃ = w := by
  have hw := w.toUInt32.toNat_lt
  simp only [toBytes, List.cons.injEq, and_true] at h
  obtain ⟨rfl, rfl, rfl, rfl⟩ := h
  have e : (ofBytes w.toUInt32.toNat.toUInt8 (w.toUInt32.toNat / 256).toUInt8
      (w.toUInt32.toNat / 65536).toUInt8 (w.toUInt32.toNat / 16777216).toUInt8).toUInt32 = w.toUInt32 := by
    rw [← UInt32.toNat_inj, toNat_ofBytes]
    simp only [Nat.toUInt8_eq, UInt8.toNat_ofNat']
    omega
  simpa using congrArg UInt32.toInt32 e

example : toBytes (-2) = [254, 255, 255, 255] := by decide

end Word

end RegisterMachine
