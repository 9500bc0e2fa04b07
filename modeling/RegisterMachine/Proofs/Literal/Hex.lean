import RegisterMachine.Proofs.Item.Grammar

/-!
# Hex literals

Hex literals and byte strings determine each other up to the case of letters: a text is a literal of bytes exactly if
it is their rendering once its letters are in lower case (`Literal.hex_eq_ok_iff`).  Which texts are no literals can be
told from their bytes in UTF-8 (`forall_isHexByte_iff`): they fail a check of the number of bytes or of one of them, and
behind these checks reading cannot fail (`Literal.hex_eq_staged`).
-/

namespace RegisterMachine

/-- The byte is the ASCII code of a hex digit of either case. -/
def IsHexByte (byte : UInt8) : Prop :=
  (48 ≤ byte.toNat ∧ byte.toNat ≤ 57) ∨ (97 ≤ byte.toNat ∧ byte.toNat ≤ 102) ∨
    (65 ≤ byte.toNat ∧ byte.toNat ≤ 70)

instance : DecidablePred IsHexByte := fun _ => inferInstanceAs (Decidable (_ ∨ _ ∨ _))

/-! ### Bytes of characters -/

theorem utf8EncodeChar_of_ascii {c : Char} (h : c.toNat ≤ 127) :
    String.utf8EncodeChar c = [UInt8.ofNat c.toNat] := by
  unfold String.utf8EncodeChar
  exact if_pos h

/-- The bytes of a character that is not ASCII are not ASCII either. -/
theorem le_of_mem_utf8EncodeChar {c : Char} (h : 127 < c.toNat) {byte : UInt8}
    (hbyte : byte ∈ String.utf8EncodeChar c) : 128 ≤ byte.toNat := by
  have hascii : ¬c.val.toNat ≤ 127 := Nat.not_le.2 h
  unfold String.utf8EncodeChar at hbyte
  simp only [hascii, if_false] at hbyte
  split at hbyte
  · simp only [List.mem_cons, List.not_mem_nil, or_false] at hbyte
    rcases hbyte with rfl | rfl <;> rw [UInt8.toNat_ofNat'] <;> omega
  · split at hbyte
    · simp only [List.mem_cons, List.not_mem_nil, or_false] at hbyte
      rcases hbyte with rfl | rfl | rfl <;> rw [UInt8.toNat_ofNat'] <;> omega
    · simp only [List.mem_cons, List.not_mem_nil, or_false] at hbyte
      rcases hbyte with rfl | rfl | rfl | rfl <;> rw [UInt8.toNat_ofNat'] <;> omega

theorem forall_mem_utf8EncodeChar_iff {c : Char} :
    (∀ byte ∈ String.utf8EncodeChar c, IsHexByte byte) ↔ isHexDigit c = true := by
  rw [isHexDigit_iff]
  by_cases hascii : c.toNat ≤ 127
  · rw [utf8EncodeChar_of_ascii hascii, List.forall_mem_singleton, IsHexByte, UInt8.toNat_ofNat', Nat.mod_eq_of_lt]
    omega
  · refine iff_of_false (fun hall => ?_) (by omega)
    obtain ⟨byte, hbyte⟩ := List.exists_mem_of_ne_nil _ String.utf8EncodeChar_ne_nil
    have hle := le_of_mem_utf8EncodeChar (Nat.not_le.1 hascii) hbyte
    have hhex := hall byte hbyte
    rw [IsHexByte] at hhex
    omega

theorem mem_data_toByteArray_iff {text : String} {byte : UInt8} :
    byte ∈ text.toByteArray.data ↔ ∃ c ∈ text.toList, byte ∈ String.utf8EncodeChar c := by
  rw [← String.utf8Encode_toList, List.utf8Encode, List.data_toByteArray, List.mem_toArray, List.mem_flatMap]

/-- The bytes of a text are hex digits if its characters are. -/
theorem forall_isHexByte_iff {text : String} :
    (∀ byte ∈ text.toByteArray.data, IsHexByte byte) ↔ ∀ c ∈ text.toList, isHexDigit c = true := by
  simp only [mem_data_toByteArray_iff, ← forall_mem_utf8EncodeChar_iff]
  exact ⟨fun h c hc byte hbyte => h byte ⟨c, hc, hbyte⟩, fun h byte ⟨c, hc, hbyte⟩ => h c hc byte hbyte⟩

/-! ### Digits in lower case -/

/-- The digit of a value is the one that was read, in lower case. -/
theorem digitChar_of_hexValue? {c : Char} {n : Nat} (h : hexValue? c = some n) : Nat.digitChar n = c.toLower := by
  have hall : ∀ k : Fin 103, (hexValue? (Char.ofNat k)).map Nat.digitChar =
      (hexValue? (Char.ofNat k)).map fun _ => (Char.ofNat k).toLower := by decide
  have hdigit : isHexDigit c = true := by rw [isHexDigit, h, Option.isSome_some]
  have hlt : c.toNat < 103 := by
    rw [isHexDigit_iff] at hdigit
    omega
  have hvalue := hall ⟨c.toNat, hlt⟩
  rw [Char.ofNat_toNat, h] at hvalue
  exact Option.some.inj hvalue

theorem hexDigits_of_hexBytes? {digits : List Char} {values : List UInt8} (h : hexBytes? digits = some values) :
    hexDigits values = digits.map Char.toLower := by
  fun_induction hexBytes? digits generalizing values with
  | case1 =>
    cases h
    rfl
  | case2 c => cases h
  | case3 high low rest ih =>
    obtain ⟨n, hhigh, h⟩ := Option.bind_eq_some_iff.1 h
    obtain ⟨m, hlow, h⟩ := Option.bind_eq_some_iff.1 h
    obtain ⟨others, hrest, h⟩ := Option.bind_eq_some_iff.1 h
    cases h
    have hn := hexValue?_lt hhigh
    have hm := hexValue?_lt hlow
    have hvalue : (16 * n + m).toUInt8.toNat = 16 * n + m := by
      rw [Nat.toUInt8_eq, UInt8.toNat_ofNat']
      omega
    have hhighest : (16 * n + m) / 16 = n := by omega
    have hlowest : (16 * n + m) % 16 = m := by omega
    rw [hexDigits_cons, hvalue, hhighest, hlowest, digitChar_of_hexValue? hhigh, digitChar_of_hexValue? hlow, ih hrest]
    rfl

/-- Every text is a casing of its letters in lower case. -/
theorem Cased.toLower : (cs : List Char) → Cased (cs.map Char.toLower) cs
  | [] => .nil
  | c :: cs => by
    have hcase : c = c.toLower ∨ c = c.toLower.toUpper := by
      by_cases hlt : c.toNat < 128
      · have hall : ∀ k : Fin 128, Char.ofNat k = (Char.ofNat k).toLower ∨
            Char.ofNat k = (Char.ofNat k).toLower.toUpper := by decide
        have hc := hall ⟨c.toNat, hlt⟩
        rwa [Char.ofNat_toNat] at hc
      · refine Or.inl ?_
        unfold Char.toLower
        rw [dif_neg]
        rintro ⟨-, hle⟩
        have hle' : c.toNat ≤ 90 := hle
        omega
    exact Cased.cons_iff.2 ⟨hcase, Cased.toLower cs⟩

/-! ### Literals -/

namespace Literal

variable {text : String}

/-- A literal is the rendering of its bytes up to the case of letters. -/
theorem hex_eq_ok_iff {values : List UInt8} :
    hex text = .ok values ↔ hexDigits values = text.toList.map Char.toLower := by
  constructor
  · intro h
    unfold hex at h
    split at h
    · cases h
    · cases hvalues : hexBytes? text.toList with
      | none =>
        rw [hvalues] at h
        cases h
      | some others =>
        rw [hvalues] at h
        cases h
        exact hexDigits_of_hexBytes? hvalues
  · intro h
    have hcased : Cased (hexDigits values) text.toList := h ▸ Cased.toLower text.toList
    rw [← hex_hexDigits hcased, String.ofList_toList]

/-- What renders bytes up to the case of letters is made of digits, two for each byte. -/
theorem isHexDigit_of_hexDigits {values : List UInt8} (h : hexDigits values = text.toList.map Char.toLower) :
    ∀ c ∈ text.toList, isHexDigit c = true :=
  isHexDigit_of_mem_hexDigits (h ▸ Cased.toLower text.toList)

theorem length_of_hexDigits {values : List UInt8} (h : hexDigits values = text.toList.map Char.toLower) :
    2 * values.length = text.length := by
  rw [← length_hexDigits, h, List.length_map, String.length_toList]

theorem length_of_hex {values : List UInt8} (h : hex text = .ok values) :
    2 * values.length = text.utf8ByteSize := by
  rw [hex_eq_ok_iff] at h
  rw [utf8ByteSize_of_hexDigits (isHexDigit_of_hexDigits h), length_of_hexDigits h]

/-- The digits of a text can be read in pairs exactly if the text passes the checks in front of that, of the number of
its bytes and of every byte on its own. -/
theorem exists_hexBytes?_iff : (∃ values, hexBytes? text.toList = some values) ↔
    text.utf8ByteSize % 2 = 0 ∧ ∀ byte ∈ text.toByteArray.data, IsHexByte byte := by
  constructor
  · rintro ⟨values, hvalues⟩
    have hrendered := hexDigits_of_hexBytes? hvalues
    have hdigits := isHexDigit_of_hexDigits hrendered
    have hlength := length_of_hexDigits hrendered
    rw [← utf8ByteSize_of_hexDigits hdigits] at hlength
    exact ⟨by omega, forall_isHexByte_iff.2 hdigits⟩
  · rintro ⟨heven, hbytes⟩
    have hdigits := forall_isHexByte_iff.1 hbytes
    exact exists_hexBytes? hdigits (by rwa [String.length_toList, ← utf8ByteSize_of_hexDigits hdigits])

/-- All bytes of the text are hex digits. -/
def areHexBytes (text : String) : Bool := text.toByteArray.data.all fun byte => decide (IsHexByte byte)

theorem areHexBytes_eq_true_iff : areHexBytes text = true ↔ ∀ byte ∈ text.toByteArray.data, IsHexByte byte := by
  simp only [areHexBytes, Array.all_eq_true_iff_forall_mem, decide_eq_true_eq]

/-- A text is read in stages: first the number of its bytes is checked, then all of them, and only then pairs are read.
No pair is refused behind the checks, so the last stage has no error of its own. -/
theorem hex_eq_staged (text : String) : hex text =
    if text.utf8ByteSize % 2 = 1 then .error (.oddLengthHex text)
    else if areHexBytes text then .ok ((hexBytes? text.toList).getD [])
    else .error (.invalidHexDigit text) := by
  unfold hex
  by_cases hodd : text.utf8ByteSize % 2 = 1
  · rw [if_pos hodd, if_pos hodd]
  · rw [if_neg hodd, if_neg hodd]
    have hread := @exists_hexBytes?_iff text
    rw [← areHexBytes_eq_true_iff] at hread
    cases hvalues : hexBytes? text.toList with
    | some values =>
      rw [if_pos (hread.1 ⟨values, hvalues⟩).2]
      rfl
    | none =>
      rw [if_neg]
      intro hbytes
      obtain ⟨values, hsome⟩ := hread.2 ⟨by omega, hbytes⟩
      rw [hvalues] at hsome
      cases hsome

/-- How a text is read follows from its bytes, of which the number comes first. -/
theorem hex_cases (text : String) :
    (text.utf8ByteSize % 2 = 1 ∧ hex text = .error (.oddLengthHex text)) ∨
    (text.utf8ByteSize % 2 = 0 ∧ (∃ byte ∈ text.toByteArray.data, ¬IsHexByte byte) ∧
      hex text = .error (.invalidHexDigit text)) ∨
    (text.utf8ByteSize % 2 = 0 ∧ (∀ byte ∈ text.toByteArray.data, IsHexByte byte) ∧
      ∃ values, hex text = .ok values) := by
  rw [hex_eq_staged]
  by_cases hodd : text.utf8ByteSize % 2 = 1
  · exact Or.inl ⟨hodd, if_pos hodd⟩
  · have heven : text.utf8ByteSize % 2 = 0 := by omega
    rw [if_neg hodd]
    by_cases hbytes : areHexBytes text = true
    · exact Or.inr (Or.inr ⟨heven, areHexBytes_eq_true_iff.1 hbytes, _, if_pos hbytes⟩)
    · refine Or.inr (Or.inl ⟨heven, ?_, if_neg hbytes⟩)
      rw [areHexBytes_eq_true_iff] at hbytes
      simpa using hbytes

/-- A text of an odd number of bytes is reported as that; any other one is reported if one of its bytes is no hex
digit.  The remaining texts are literals of half as many bytes, which they render up to the case of letters.  However
bytes are rendered, in letters of either case, they are read again, and literals one after the other are read as one. -/
theorem hex_of_bytes :
    (∀ text, hex text = .error (.oddLengthHex text) ↔ text.utf8ByteSize % 2 = 1) ∧
    (∀ text, hex text = .error (.invalidHexDigit text) ↔
      text.utf8ByteSize % 2 = 0 ∧ ∃ byte ∈ text.toByteArray.data, ¬IsHexByte byte) ∧
    (∀ text, (∃ values, hex text = .ok values) ↔
      text.utf8ByteSize % 2 = 0 ∧ ∀ byte ∈ text.toByteArray.data, IsHexByte byte) ∧
    (∀ text values, hex text = .ok values → 2 * values.length = text.utf8ByteSize) ∧
    (∀ text values, hex text = .ok values ↔ hexDigits values = text.toList.map Char.toLower) ∧
    (∀ values digits, Cased (hexDigits values) digits → hex (String.ofList digits) = .ok values) ∧
    (∀ front back values others, hex front = .ok values → hex back = .ok others →
      hex (front ++ back) = .ok (values ++ others)) := by
  refine ⟨?_, ?_, ?_, fun text values => length_of_hex, fun text values => hex_eq_ok_iff,
    fun values digits => hex_hexDigits, ?_⟩
  · intro text
    rcases hex_cases text with ⟨hodd, h⟩ | ⟨heven, -, h⟩ | ⟨heven, -, values, h⟩
    · exact iff_of_true h hodd
    · rw [h]
      exact iff_of_false (by simp) (by omega)
    · rw [h]
      exact iff_of_false (by simp) (by omega)
  · intro text
    rcases hex_cases text with ⟨hodd, h⟩ | ⟨heven, hbyte, h⟩ | ⟨heven, hall, values, h⟩
    · rw [h]
      exact iff_of_false (by simp) (by omega)
    · exact iff_of_true h ⟨heven, hbyte⟩
    · rw [h]
      exact iff_of_false (by simp) fun ⟨_, byte, hbyte, hnot⟩ => hnot (hall byte hbyte)
  · intro text
    rcases hex_cases text with ⟨hodd, h⟩ | ⟨heven, ⟨byte, hbyte, hnot⟩, h⟩ | ⟨heven, hall, hvalues⟩
    · rw [h]
      exact iff_of_false (by simp) (by omega)
    · rw [h]
      exact iff_of_false (by simp) fun ⟨_, hall⟩ => hnot (hall byte hbyte)
    · exact iff_of_true hvalues ⟨heven, hall⟩
  · intro front back values others hfront hback
    rw [hex_eq_ok_iff] at hfront hback ⊢
    rw [String.toList_append, List.map_append, ← hfront, ← hback, hexDigits, List.flatMap_append]
    rfl

/-- A sign is no digit although its pair would be read as a number, and a letter of two bytes counts as two. -/
theorem hex_of_bytes_both_cases :
    hex "0aFf" = .ok [10, 255] ∧ hex ("0aFf" ++ "C0") = .ok ([10, 255] ++ [192]) ∧
      Cased (hexDigits [10, 255]) "0AfF".toList ∧ hex "0AfF" = .ok [10, 255] ∧
      hex "+f" = .error (.invalidHexDigit "+f") ∧ hex "éa" = .error (.oddLengthHex "éa") ∧
      hex "é" = .error (.invalidHexDigit "é") := by
  obtain ⟨hodd, hinvalid, -, -, hok, hcased, happend⟩ := hex_of_bytes
  have hfront : hex "0aFf" = .ok [10, 255] := (hok _ _).2 (by decide)
  have hback : hex "C0" = .ok [192] := (hok _ _).2 (by decide)
  have hmixed : Cased (hexDigits [10, 255]) "0AfF".toList := by decide
  refine ⟨hfront, happend _ _ _ _ hfront hback, hmixed, hcased _ _ hmixed, (hinvalid _).2 ?_, (hodd _).2 ?_,
    (hinvalid _).2 ?_⟩
  · exact ⟨by decide, 43, mem_data_toByteArray_iff.2 ⟨'+', by decide, by decide⟩, by decide⟩
  · decide
  · exact ⟨by decide, 195, mem_data_toByteArray_iff.2 ⟨'é', by decide, by decide⟩, by decide⟩

end Literal

end RegisterMachine
