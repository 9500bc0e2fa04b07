import Mathlib.Data.List.Induction
import Mathlib.Data.Nat.Digits.Defs
import RegisterMachine.Proofs.Item.Grammar

/-!
# Decimal literals

Byte and integer literals are the decimal numerals of bytes and words, however many zeros they start with.  What a
numeral stands for is told by the places of its digits (`Numeral`), not by the reader, which goes through them from the
front (`decimal?_eq_some_iff_numeral`).
-/

namespace RegisterMachine

/-- One or more decimal digits, and the number that they stand for by their places. -/
def Numeral (digits : List Char) (n : Nat) : Prop :=
  digits ≠ [] ∧ (∀ c ∈ digits, c.isDigit = true) ∧ Nat.ofDigits 10 (digits.reverse.map fun c => c.toNat - 48) = n

/-- A numeral behind one minus sign or none. -/
inductive SignedNumeral : List Char → Int → Prop
  | plain {digits : List Char} {n : Nat} (h : Numeral digits n) : SignedNumeral digits n
  | minus {digits : List Char} {n : Nat} (h : Numeral digits n) : SignedNumeral ('-' :: digits) (-n)

/-- A digit behind a numeral takes the lowest place. -/
theorem decimalValue_eq (digits : List Char) :
    decimalValue digits = Nat.ofDigits 10 (digits.reverse.map fun c => c.toNat - 48) := by
  induction digits using List.reverseRecOn with
  | nil => rfl
  | append_singleton digits c ih =>
    rw [List.reverse_append, List.reverse_singleton, List.singleton_append, List.map_cons, Nat.ofDigits_cons, ← ih,
      decimalValue, List.foldl_append, Nat.add_comm]
    rfl

theorem decimal?_eq_some_iff_numeral {digits : List Char} {n : Nat} :
    decimal? digits = some n ↔ Numeral digits n := by
  rw [decimal?_eq_some_iff, decimalValue_eq, Numeral]

theorem Numeral.unique {digits : List Char} {m n : Nat} (hm : Numeral digits m) (hn : Numeral digits n) : m = n :=
  hm.2.2.symm.trans hn.2.2

/-- No minus sign is a digit, so the sign of an integer is its first character. -/
theorem not_numeral_minus (digits : List Char) (n : Nat) : ¬Numeral ('-' :: digits) n :=
  fun h => absurd (h.2.1 '-' List.mem_cons_self) (by decide)

namespace Literal

private theorem map_natCast_eq_some_iff {value : Option Nat} {f : Int → Int} {v : Int} :
    (value >>= fun n => pure (n : Int)).map f = some v ↔ ∃ n : Nat, value = some n ∧ f n = v := by
  cases value with
  | none => simp
  | some n => simp

theorem signedDecimal?_eq_some_iff_signedNumeral {digits : List Char} {v : Int} :
    signedDecimal? digits = some v ↔ SignedNumeral digits v := by
  fun_cases signedDecimal? digits with
  | case1 digits =>
    rw [map_natCast_eq_some_iff]
    constructor
    · rintro ⟨n, hvalue, rfl⟩
      exact .minus (decimal?_eq_some_iff_numeral.1 hvalue)
    · intro h
      cases h with
      | plain h => exact absurd h (not_numeral_minus _ _)
      | minus h => exact ⟨_, decimal?_eq_some_iff_numeral.2 h, rfl⟩
  | case2 digits hminus =>
    rw [map_natCast_eq_some_iff]
    constructor
    · rintro ⟨n, hvalue, rfl⟩
      exact .plain (decimal?_eq_some_iff_numeral.1 hvalue)
    · intro h
      cases h with
      | plain h => exact ⟨_, decimal?_eq_some_iff_numeral.2 h, rfl⟩
      | minus h => exact absurd rfl (hminus _)

theorem signedNumeral_unique {digits : List Char} {v w : Int} (hv : SignedNumeral digits v)
    (hw : SignedNumeral digits w) : v = w := by
  rw [← signedDecimal?_eq_some_iff_signedNumeral] at hv hw
  exact Option.some.inj (hv.symm.trans hw)

/-! ### Bytes -/

variable {text : String}

theorem isByte_iff : IsByte text ↔ ∃ n, Numeral text.toList n ∧ n ≤ 255 := by
  simp only [IsByte, decimal?_eq_some_iff_numeral]

theorem numeral_of_byte {value : UInt8} (h : byte text = .ok value) : Numeral text.toList value.toNat := by
  rw [← decimal?_eq_some_iff_numeral]
  unfold byte at h
  cases hvalue : decimal? text.toList with
  | none =>
    rw [hvalue] at h
    cases h
  | some n =>
    rw [hvalue] at h
    by_cases hle : n ≤ 255
    · have hn : n.toUInt8 = value := Except.ok.inj ((if_pos hle).symm.trans h)
      rw [← hn, Nat.toUInt8_eq, UInt8.toNat_ofNat_of_lt' (Nat.lt_succ_of_le hle)]
    · cases (if_neg hle).symm.trans h

theorem byte_eq_error_iff : byte text = .error (.invalidByte text) ↔ ¬∃ n, Numeral text.toList n ∧ n ≤ 255 := by
  rw [← isByte_iff]
  refine ⟨fun herror hbyte => ?_, byte_of_not_isByte⟩
  obtain ⟨value, hvalue⟩ := exists_byte_of_isByte hbyte
  cases hvalue.symm.trans herror

theorem exists_byte_iff {n : Nat} : (∃ value, byte text = .ok value ∧ value.toNat = n) ↔
    Numeral text.toList n ∧ n ≤ 255 := by
  constructor
  · rintro ⟨value, hvalue, rfl⟩
    exact ⟨numeral_of_byte hvalue, Nat.le_of_lt_succ value.toNat_lt⟩
  · rintro ⟨hn, hle⟩
    obtain ⟨value, hvalue⟩ := exists_byte_of_isByte (isByte_iff.2 ⟨n, hn, hle⟩)
    exact ⟨value, hvalue, (numeral_of_byte hvalue).unique hn⟩

theorem byte_eq_ok_iff {value : UInt8} : byte text = .ok value ↔ Numeral text.toList value.toNat := by
  refine ⟨numeral_of_byte, fun h => ?_⟩
  obtain ⟨found, hfound, heq⟩ := exists_byte_iff.2 ⟨h, Nat.le_of_lt_succ value.toNat_lt⟩
  rw [hfound, UInt8.toNat_inj.1 heq]

/-! ### Integers -/

theorem isWord_iff : IsWord text ↔ ∃ v, SignedNumeral text.toList v ∧ -2147483648 ≤ v ∧ v ≤ 2147483647 := by
  simp only [IsWord, signedDecimal?_eq_some_iff_signedNumeral]

theorem signedNumeral_of_int {word : Word} (h : int text = .ok word) : SignedNumeral text.toList word.toInt := by
  rw [← signedDecimal?_eq_some_iff_signedNumeral]
  unfold int at h
  cases hvalue : signedDecimal? text.toList with
  | none =>
    rw [hvalue] at h
    cases h
  | some v =>
    rw [hvalue] at h
    by_cases hrange : -2147483648 ≤ v ∧ v ≤ 2147483647
    · have hv : Int32.ofInt v = word := Except.ok.inj ((if_pos hrange).symm.trans h)
      rw [← hv, Int32.toInt_ofInt_of_le (by omega) (by omega)]
    · cases (if_neg hrange).symm.trans h

theorem int_eq_error_iff : int text = .error (.invalidInt text) ↔
    ¬∃ v, SignedNumeral text.toList v ∧ -2147483648 ≤ v ∧ v ≤ 2147483647 := by
  rw [← isWord_iff]
  refine ⟨fun herror hword => ?_, int_of_not_isWord⟩
  obtain ⟨word, hword⟩ := exists_int_of_isWord hword
  cases hword.symm.trans herror

theorem exists_int_iff {v : Int} : (∃ word, int text = .ok word ∧ word.toInt = v) ↔
    SignedNumeral text.toList v ∧ -2147483648 ≤ v ∧ v ≤ 2147483647 := by
  constructor
  · rintro ⟨word, hword, rfl⟩
    exact ⟨signedNumeral_of_int hword, word.le_toInt, Int.le_of_lt_add_one word.toInt_lt⟩
  · rintro ⟨hv, hrange⟩
    obtain ⟨word, hword⟩ := exists_int_of_isWord (isWord_iff.2 ⟨v, hv, hrange⟩)
    exact ⟨word, hword, signedNumeral_unique (signedNumeral_of_int hword) hv⟩

theorem int_eq_ok_iff {word : Word} : int text = .ok word ↔ SignedNumeral text.toList word.toInt := by
  refine ⟨signedNumeral_of_int, fun h => ?_⟩
  obtain ⟨found, hfound, heq⟩ := exists_int_iff.2 ⟨h, word.le_toInt, Int.le_of_lt_add_one word.toInt_lt⟩
  rw [hfound, Int32.toInt_inj.1 heq]

/-- The four bytes of the literal are those of a number that they can be read as again. -/
theorem exists_bytes_iff {v : Int} :
    (∃ b₀ b₁ b₂ b₃, (int text).map Word.toBytes = .ok [b₀, b₁, b₂, b₃] ∧ (Word.ofBytes b₀ b₁ b₂ b₃).toInt = v) ↔
      ∃ word, int text = .ok word ∧ word.toInt = v := by
  constructor
  · rintro ⟨b₀, b₁, b₂, b₃, hbytes, hv⟩
    cases hword : int text with
    | error error =>
      rw [hword] at hbytes
      cases hbytes
    | ok word =>
      rw [hword] at hbytes
      rw [Word.ofBytes_of_toBytes_eq (Except.ok.inj hbytes)] at hv
      exact ⟨word, rfl, hv⟩
  · rintro ⟨word, hword, hv⟩
    refine ⟨_, _, _, _, congrArg (Except.map Word.toBytes) hword, ?_⟩
    rw [Word.ofBytes_of_toBytes_eq rfl, hv]

/-! ### Rendered numbers -/

private theorem toString_nat_eq (n : Nat) : toString n = String.ofList (numeral 0 n) := rfl

private theorem toString_int_eq (v : Int) : toString v = String.ofList (signedNumeral v) := by
  unfold signedNumeral
  cases v with
  | ofNat n => exact toString_nat_eq n
  | negSucc n =>
    rw [if_pos (Int.negSucc_lt_zero n), String.ofList_cons]
    rfl

/-- A text is a byte literal exactly if it is one or more digits of a number up to 255, which is then its value.  It is
an integer literal exactly if it is a number of 32 bits in digits, with a minus sign in front of them or without one;
then the four bytes that it stands for are read as this number again.  Any other text is reported as it is.  The
decimal renderings of all bytes and all words are literals of them. -/
theorem ok_iff_numeral (text : String) :
    (∀ n, (∃ value, byte text = .ok value ∧ value.toNat = n) ↔ Numeral text.toList n ∧ n ≤ 255) ∧
    (byte text = .error (.invalidByte text) ↔ ¬∃ n, Numeral text.toList n ∧ n ≤ 255) ∧
    (∀ v, (∃ b₀ b₁ b₂ b₃, (int text).map Word.toBytes = .ok [b₀, b₁, b₂, b₃] ∧ (Word.ofBytes b₀ b₁ b₂ b₃).toInt = v) ↔
      SignedNumeral text.toList v ∧ -2147483648 ≤ v ∧ v ≤ 2147483647) ∧
    (int text = .error (.invalidInt text) ↔
      ¬∃ v, SignedNumeral text.toList v ∧ -2147483648 ≤ v ∧ v ≤ 2147483647) ∧
    (∀ value : UInt8, byte (toString value.toNat) = .ok value) ∧
    (∀ word : Word, int (toString word.toInt) = .ok word) := by
  refine ⟨fun n => exists_byte_iff, byte_eq_error_iff, fun v => ?_, int_eq_error_iff, ?_, ?_⟩
  · rw [exists_bytes_iff, exists_int_iff]
  · intro value
    rw [toString_nat_eq, byte_numeral]
  · intro word
    rw [toString_int_eq, int_signedNumeral]

end Literal

end RegisterMachine
