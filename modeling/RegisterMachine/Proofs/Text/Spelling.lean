import RegisterMachine.Directive
import RegisterMachine.Literal

/-!
# Spellings

One literal, mnemonic or keyword can be written in more than one way: with letters of either case, or with zeros in
front of its digits.  Each way reads back as what was written.
-/

namespace RegisterMachine

/-! ### Classes of characters as ranges -/

theorem isDigit_iff {c : Char} : c.isDigit = true ↔ 48 ≤ c.toNat ∧ c.toNat ≤ 57 := by
  simp only [Char.isDigit, Bool.and_eq_true, decide_eq_true_eq]
  exact Iff.rfl

theorem isNameStart_iff {c : Char} : isNameStart c = true ↔
    (65 ≤ c.toNat ∧ c.toNat ≤ 90) ∨ (97 ≤ c.toNat ∧ c.toNat ≤ 122) ∨ c.toNat = 95 ∨ c.toNat = 46 := by
  have hupper : c.isUpper = true ↔ 65 ≤ c.toNat ∧ c.toNat ≤ 90 := by
    show decide (c.val ≥ 'A'.val ∧ c.val ≤ 'Z'.val) = true ↔ _
    rw [decide_eq_true_eq]
    exact Iff.rfl
  have hlower : c.isLower = true ↔ 97 ≤ c.toNat ∧ c.toNat ≤ 122 := by
    show (decide (c.val ≥ 'a'.val) && decide (c.val ≤ 'z'.val)) = true ↔ _
    rw [Bool.and_eq_true, decide_eq_true_eq, decide_eq_true_eq]
    exact Iff.rfl
  have halpha : c.isAlpha = (c.isUpper || c.isLower) := rfl
  have hunderscore : c = '_' ↔ c.toNat = 95 := Char.toNat_inj.symm
  have hdot : c = '.' ↔ c.toNat = 46 := Char.toNat_inj.symm
  rw [isNameStart, halpha, Bool.or_eq_true, Bool.or_eq_true, Bool.or_eq_true, hupper, hlower, beq_iff_eq, beq_iff_eq,
    hunderscore, hdot]
  omega

private theorem hexValue?_eq (c : Char) : hexValue? c =
    if 48 ≤ c.toNat ∧ c.toNat ≤ 57 then some (c.toNat - 48)
    else if 97 ≤ c.toNat ∧ c.toNat ≤ 102 then some (c.toNat - 87)
    else if 65 ≤ c.toNat ∧ c.toNat ≤ 70 then some (c.toNat - 55)
    else none := by
  have hlower : ('a' ≤ c ∧ c ≤ 'f') ↔ (97 ≤ c.toNat ∧ c.toNat ≤ 102) := Iff.rfl
  have hupper : ('A' ≤ c ∧ c ≤ 'F') ↔ (65 ≤ c.toNat ∧ c.toNat ≤ 70) := Iff.rfl
  simp only [hexValue?, isDigit_iff, hlower, hupper]

theorem isHexDigit_iff {c : Char} : isHexDigit c = true ↔
    (48 ≤ c.toNat ∧ c.toNat ≤ 57) ∨ (97 ≤ c.toNat ∧ c.toNat ≤ 102) ∨ (65 ≤ c.toNat ∧ c.toNat ≤ 70) := by
  rw [isHexDigit, hexValue?_eq]
  split
  · simp_all
  · split
    · simp_all
    · split <;> simp_all

/-! ### Letters of either case -/

/-- The second text is the first one with some of its letters in upper case. -/
inductive Cased : List Char → List Char → Prop
  | nil : Cased [] []
  | same (c : Char) {cs ds : List Char} (h : Cased cs ds) : Cased (c :: cs) (c :: ds)
  | upper (c : Char) {cs ds : List Char} (h : Cased cs ds) : Cased (c :: cs) (c.toUpper :: ds)

theorem toUpper_cases (c : Char) :
    c.toUpper = c ∨ (97 ≤ c.toNat ∧ c.toNat ≤ 122 ∧ c.toUpper.toNat + 32 = c.toNat) := by
  unfold Char.toUpper
  split
  · rename_i h
    have hlow : 97 ≤ c.val.toNat := h.1
    have hhigh : c.val.toNat ≤ 122 := h.2
    have hshift : ('A'.val - 'a'.val).toNat = 4294967264 := by decide
    refine Or.inr ⟨hlow, hhigh, ?_⟩
    show (c.val + ('A'.val - 'a'.val)).toNat + 32 = c.val.toNat
    rw [UInt32.toNat_add, hshift]
    omega
  · exact Or.inl rfl

private theorem toLower_of_upper {c : Char} (hlow : 65 ≤ c.toNat) (hhigh : c.toNat ≤ 90) :
    c.toLower.toNat = c.toNat + 32 := by
  have hshift : ('a'.val - 'A'.val).toNat = 32 := by decide
  unfold Char.toLower
  rw [dif_pos ⟨hlow, hhigh⟩]
  show (c.val + ('a'.val - 'A'.val)).toNat = c.val.toNat + 32
  have hhigh' : c.val.toNat ≤ 90 := hhigh
  rw [UInt32.toNat_add, hshift]
  omega

private theorem toLower_of_lower {c : Char} (hlow : 97 ≤ c.toNat) : c.toLower = c := by
  unfold Char.toLower
  rw [dif_neg]
  rintro ⟨-, hhigh⟩
  have hhigh' : c.toNat ≤ 90 := hhigh
  omega

private theorem toLower_toUpper (c : Char) : c.toUpper.toLower = c.toLower := by
  rcases toUpper_cases c with h | ⟨hlow, hhigh, hupper⟩
  · rw [h]
  · rw [toLower_of_lower hlow, ← Char.toNat_inj, toLower_of_upper (by omega) (by omega), hupper]

/-- The value of a hex digit does not depend on its case. -/
private theorem hexValue?_toUpper (c : Char) : hexValue? c.toUpper = hexValue? c := by
  rcases toUpper_cases c with h | ⟨hlow, hhigh, hupper⟩
  · rw [h]
  · rw [hexValue?_eq, hexValue?_eq]
    by_cases hhex : c.toNat ≤ 102
    · rw [if_neg (by omega), if_neg (by omega), if_pos (by omega), if_neg (by omega), if_pos (by omega)]
      congr 1
      omega
    · rw [if_neg (by omega), if_neg (by omega), if_neg (by omega), if_neg (by omega), if_neg (by omega),
        if_neg (by omega)]

namespace Cased

variable {cs ds : List Char}

theorem refl : (cs : List Char) → Cased cs cs
  | [] => nil
  | c :: cs => same c (refl cs)

theorem cons_iff {c d : Char} : Cased (c :: cs) (d :: ds) ↔ (d = c ∨ d = c.toUpper) ∧ Cased cs ds := by
  constructor
  · intro h
    cases h with
    | same c h => exact ⟨Or.inl rfl, h⟩
    | upper c h => exact ⟨Or.inr rfl, h⟩
  · rintro ⟨rfl | rfl, h⟩
    · exact same _ h
    · exact upper _ h

instance decidable : (cs ds : List Char) → Decidable (Cased cs ds)
  | [], [] => isTrue nil
  | [], _ :: _ => isFalse (fun h => nomatch h)
  | _ :: _, [] => isFalse (fun h => nomatch h)
  | _ :: cs, _ :: ds =>
    have := decidable cs ds
    decidable_of_iff _ cons_iff.symm

theorem map_toLower (h : Cased cs ds) : ds.map Char.toLower = cs.map Char.toLower := by
  induction h with
  | nil => rfl
  | same c h ih => rw [List.map_cons, List.map_cons, ih]
  | upper c h ih => rw [List.map_cons, List.map_cons, ih, toLower_toUpper]

/-- A property of characters that upper case keeps is one of the whole text. -/
theorem forall_mem (h : Cased cs ds) {p : Char → Prop} (hp : ∀ c, p c → p c.toUpper) (hcs : ∀ c ∈ cs, p c) :
    ∀ d ∈ ds, p d := by
  induction h with
  | nil => exact hcs
  | same c h ih =>
    rw [List.forall_mem_cons] at hcs ⊢
    exact ⟨hcs.1, ih hcs.2⟩
  | upper c h ih =>
    rw [List.forall_mem_cons] at hcs ⊢
    exact ⟨hp c hcs.1, ih hcs.2⟩

theorem length_eq (h : Cased cs ds) : ds.length = cs.length := by
  rw [← List.length_map (f := Char.toLower), h.map_toLower, List.length_map]

end Cased

theorem sameLetters_iff {s t : String} :
    sameLetters s t = true ↔ s.toList.map Char.toLower = t.toList.map Char.toLower := beq_iff_eq

theorem Cased.sameLetters {word : String} {text : List Char} (h : Cased word.toList text) :
    sameLetters word (String.ofList text) = true := by
  rw [sameLetters_iff, String.toList_ofList, h.map_toLower]

/-- Directives are recognised in letters of either case. -/
theorem Directive.ofWord?_of_sameLetters {s t : String} (h : sameLetters s t = true) : ofWord? t = ofWord? s := by
  unfold ofWord? sameLetters
  rw [sameLetters_iff.1 h]

theorem Directive.ofWord?_of_cased {word : String} {text : List Char} (h : Cased word.toList text) :
    ofWord? (String.ofList text) = ofWord? word := ofWord?_of_sameLetters h.sameLetters

/-- Mnemonics are recognised in letters of either case. -/
theorem Opcode.ofMnemonic?_of_sameLetters {s t : String} (h : sameLetters s t = true) :
    ofMnemonic? t = ofMnemonic? s := by
  unfold ofMnemonic? sameLetters
  rw [sameLetters_iff.1 h]

theorem Opcode.ofMnemonic?_of_cased {word : String} {text : List Char} (h : Cased word.toList text) :
    ofMnemonic? (String.ofList text) = ofMnemonic? word := ofMnemonic?_of_sameLetters h.sameLetters

/-- No mnemonic is a directive. -/
theorem Opcode.ofWord?_mnemonic (op : Opcode) : Directive.ofWord? op.mnemonic = none := by
  cases op <;> decide

/-! ### Decimal numerals -/

/-- The decimal digits of a number behind some zeros. -/
def numeral (zeros n : Nat) : List Char := List.replicate zeros '0' ++ Nat.toDigits 10 n

/-- The decimal digits of an integer behind its sign. -/
def signedNumeral (n : Int) : List Char := if n < 0 then '-' :: numeral 0 n.natAbs else numeral 0 n.natAbs

theorem numeral_ne_nil (zeros n : Nat) : numeral zeros n ≠ [] := by
  intro h
  exact Nat.toDigits_ne_nil (List.append_eq_nil_iff.1 h).2

theorem isDigit_of_mem_numeral {zeros n : Nat} {c : Char} (h : c ∈ numeral zeros n) : c.isDigit = true := by
  rcases List.mem_append.1 h with hzero | hdigit
  · rw [List.eq_of_mem_replicate hzero]
    rfl
  · exact Nat.isDigit_of_mem_toDigits (by decide) (by decide) hdigit

theorem decimal?_numeral (zeros n : Nat) : decimal? (numeral zeros n) = some n := by
  rw [decimal?_eq_some_iff]
  refine ⟨numeral_ne_nil zeros n, fun c hc => isDigit_of_mem_numeral hc, ?_⟩
  show Nat.ofDigitChars 10 (numeral zeros n) 0 = n
  rw [numeral, Nat.ofDigitChars_append, Nat.ofDigitChars_replicate_zero, Nat.mul_zero, Nat.ofDigitChars_ten_toDigits]

theorem Literal.byte_numeral (zeros : Nat) (value : UInt8) :
    byte (String.ofList (numeral zeros value.toNat)) = .ok value := by
  have hlt := value.toNat_lt
  unfold byte
  rw [String.toList_ofList, decimal?_numeral]
  dsimp only
  rw [if_pos (by omega), Nat.toUInt8_eq, UInt8.ofNat_toNat]

private theorem signedDecimal?_signedNumeral (n : Int) : Literal.signedDecimal? (signedNumeral n) = some n := by
  unfold signedNumeral
  by_cases hneg : n < 0
  · rw [if_pos hneg, Literal.signedDecimal?, decimal?_numeral]
    show some (-(n.natAbs : Int)) = some n
    congr 1
    omega
  · rw [if_neg hneg]
    cases hdigits : numeral 0 n.natAbs with
    | nil => exact absurd hdigits (numeral_ne_nil _ _)
    | cons c cs =>
      have hc : c ≠ '-' := by
        rintro rfl
        have hdigit := isDigit_of_mem_numeral (hdigits ▸ List.mem_cons_self)
        exact absurd hdigit (by decide)
      rw [Literal.signedDecimal?, ← hdigits, decimal?_numeral]
      · show some (n.natAbs : Int) = some n
        congr 1
        omega
      · intro digits heq
        exact hc (List.cons.inj heq).1

theorem Literal.int_signedNumeral (value : Word) :
    int (String.ofList (signedNumeral value.toInt)) = .ok value := by
  have hlow : -2147483648 ≤ value.toInt := value.le_toInt
  have hhigh : value.toInt < 2147483648 := value.toInt_lt
  unfold int
  rw [String.toList_ofList, signedDecimal?_signedNumeral]
  dsimp only
  rw [if_pos (by omega), Int32.ofInt_toInt]

/-! ### Hex sequences -/

/-- The pairs of hex digits of the bytes. -/
def hexDigits (values : List UInt8) : List Char :=
  values.flatMap fun value => [Nat.digitChar (value.toNat / 16), Nat.digitChar (value.toNat % 16)]

theorem hexDigits_cons (value : UInt8) (values : List UInt8) : hexDigits (value :: values) =
    Nat.digitChar (value.toNat / 16) :: Nat.digitChar (value.toNat % 16) :: hexDigits values := rfl

private theorem hexValue?_digitChar {n : Nat} (h : n < 16) : hexValue? (Nat.digitChar n) = some n := by
  have hall : ∀ n : Fin 16, hexValue? (Nat.digitChar n) = some n.val := by decide
  exact hall ⟨n, h⟩

theorem hexBytes?_hexDigits (values : List UInt8) : hexBytes? (hexDigits values) = some values := by
  induction values with
  | nil => rfl
  | cons value values ih =>
    have hlt := value.toNat_lt
    have hvalue : (16 * (value.toNat / 16) + value.toNat % 16).toUInt8 = value := by
      rw [Nat.div_add_mod, Nat.toUInt8_eq, UInt8.ofNat_toNat]
    rw [hexDigits_cons, hexBytes?, hexValue?_digitChar (by omega), hexValue?_digitChar (by omega), ih]
    simp only [Option.bind_eq_bind, Option.bind_some, hvalue]
    rfl

/-- Hex digits of either case have the same values. -/
private theorem hexBytes?_of_cased {cs ds : List Char} (h : Cased cs ds) : hexBytes? ds = hexBytes? cs := by
  have hvalues : ds.map hexValue? = cs.map hexValue? := by
    induction h with
    | nil => rfl
    | same c h ih => rw [List.map_cons, List.map_cons, ih]
    | upper c h ih => rw [List.map_cons, List.map_cons, ih, hexValue?_toUpper]
  clear h
  -- Only the values of the digits count, so the two texts are read in step, a pair at a time.
  fun_induction hexBytes? cs generalizing ds with
  | case1 =>
    rw [List.map_nil, List.map_eq_nil_iff] at hvalues
    rw [hvalues, hexBytes?]
  | case2 c =>
    obtain ⟨d, rest, rfl, hd, hrest⟩ := List.map_eq_cons_iff.1 hvalues
    rw [List.map_nil, List.map_eq_nil_iff] at hrest
    rw [hrest, hexBytes?]
  | case3 high low rest ih =>
    obtain ⟨high', ds, rfl, hhigh, hds⟩ := List.map_eq_cons_iff.1 hvalues
    obtain ⟨low', ds, rfl, hlow, hrest⟩ := List.map_eq_cons_iff.1 hds
    rw [hexBytes?, hhigh, hlow, ih hrest]

theorem length_hexDigits (values : List UInt8) : (hexDigits values).length = 2 * values.length := by
  induction values with
  | nil => rfl
  | cons value values ih =>
    rw [hexDigits_cons, List.length_cons, List.length_cons, ih, List.length_cons]
    omega

theorem isHexDigit_of_mem_hexDigits {values : List UInt8} {digits : List Char} (h : Cased (hexDigits values) digits) :
    ∀ c ∈ digits, isHexDigit c = true := by
  apply h.forall_mem (p := fun c => isHexDigit c = true)
  · intro c hc
    rw [isHexDigit, hexValue?_toUpper]
    exact hc
  · intro c hc
    obtain ⟨value, -, hmem⟩ := List.mem_flatMap.1 hc
    have hlt := value.toNat_lt
    rw [isHexDigit]
    simp only [List.mem_cons, List.not_mem_nil, or_false] at hmem
    rcases hmem with rfl | rfl
    · rw [hexValue?_digitChar (by omega)]
      rfl
    · rw [hexValue?_digitChar (by omega)]
      rfl

theorem utf8ByteSize_ofList {cs : List Char} (h : ∀ c ∈ cs, c.toNat ≤ 127) :
    (String.ofList cs).utf8ByteSize = cs.length := by
  induction cs with
  | nil => rfl
  | cons c cs ih =>
    rw [List.forall_mem_cons] at h
    have hsize : c.utf8Size = 1 := Char.utf8Size_eq_one_iff.2 h.1
    rw [String.ofList_cons, String.utf8ByteSize_append, String.utf8ByteSize_singleton, hsize, ih h.2,
      List.length_cons, Nat.add_comm]

theorem Literal.hex_hexDigits {values : List UInt8} {digits : List Char} (h : Cased (hexDigits values) digits) :
    hex (String.ofList digits) = .ok values := by
  have hascii : ∀ c ∈ digits, c.toNat ≤ 127 := by
    intro c hc
    have hdigit := isHexDigit_iff.1 (isHexDigit_of_mem_hexDigits h c hc)
    omega
  have heven : ¬(String.ofList digits).utf8ByteSize % 2 = 1 := by
    rw [utf8ByteSize_ofList hascii, h.length_eq, length_hexDigits]
    omega
  unfold hex
  rw [if_neg heven, String.toList_ofList, hexBytes?_of_cased h, hexBytes?_hexDigits]

end RegisterMachine
