import RegisterMachine.Proofs.Item.Stream

/-!
# The grammar of sources

Which sequences of tokens say items, told without the reader: phrases of one or two tokens (`Phrase`), one after the
other and with labels that are new (`Sentence`).  In any other sequence some token is the first that breaks the
grammar, and it alone decides the error (`Flaw`, `Broken`).  There is no third case (`sentence_or_broken`).
-/

namespace RegisterMachine

/-! ### Words and literals -/

/-- The word is the directive's keyword in letters of either case. -/
def Directive.WrittenAs (directive : Directive) (word : String) : Prop := sameLetters directive.keyword word = true

/-- The word is the opcode's mnemonic in letters of either case. -/
def Opcode.WrittenAs (op : Opcode) (word : String) : Prop := sameLetters op.mnemonic word = true

instance (directive : Directive) (word : String) : Decidable (directive.WrittenAs word) :=
  inferInstanceAs (Decidable (sameLetters directive.keyword word = true))

instance (op : Opcode) (word : String) : Decidable (op.WrittenAs word) :=
  inferInstanceAs (Decidable (sameLetters op.mnemonic word = true))

/-- The text is a decimal numeral of a byte. -/
def Literal.IsByte (text : String) : Prop := ∃ n, decimal? text.toList = some n ∧ n ≤ 255

/-- The text is a signed decimal numeral of a word. -/
def Literal.IsWord (text : String) : Prop :=
  ∃ n, signedDecimal? text.toList = some n ∧ -2147483648 ≤ n ∧ n ≤ 2147483647

theorem Directive.ofWord?_eq_some_iff {directive : Directive} {word : String} :
    ofWord? word = some directive ↔ directive.WrittenAs word := by
  constructor
  · intro h
    exact List.find?_some (p := fun directive : Directive => sameLetters directive.keyword word) h
  · intro h
    rw [ofWord?_of_sameLetters h, ofWord?_keyword]

theorem Opcode.ofMnemonic?_eq_some_iff {op : Opcode} {word : String} :
    ofMnemonic? word = some op ↔ op.WrittenAs word := by
  constructor
  · intro h
    exact List.find?_some (p := fun op : Opcode => sameLetters op.mnemonic word) h
  · intro h
    rw [ofMnemonic?_of_sameLetters h, ofMnemonic?_mnemonic]

theorem Directive.WrittenAs.directive?_eq_some {directive : Directive} {word : String}
    (h : directive.WrittenAs word) : (Token.identifier word).directive? = some directive :=
  Directive.ofWord?_eq_some_iff.2 h

theorem Opcode.WrittenAs.directive?_eq_none {op : Opcode} {word : String} (h : op.WrittenAs word) :
    (Token.identifier word).directive? = none := by
  rw [Token.directive?, Directive.ofWord?_of_sameLetters h, ofWord?_mnemonic]

/-- Only a keyword is a directive. -/
theorem Token.eq_identifier_of_directive? {token : Token} {directive : Directive}
    (h : token.directive? = some directive) : ∃ word, token = .identifier word ∧ directive.WrittenAs word := by
  cases token with
  | identifier word => exact ⟨word, rfl, Directive.ofWord?_eq_some_iff.1 h⟩
  | _ => cases h

namespace Literal

variable {text : String}

theorem mnemonic_eq_ok_iff {op : Opcode} : mnemonic text = .ok op ↔ op.WrittenAs text := by
  rw [← Opcode.ofMnemonic?_eq_some_iff, mnemonic]
  cases Opcode.ofMnemonic? text <;> simp

theorem exists_byte_of_isByte (h : IsByte text) : ∃ value, byte text = .ok value := by
  obtain ⟨n, hvalue, hle⟩ := h
  refine ⟨n.toUInt8, ?_⟩
  unfold byte
  rw [hvalue]
  exact if_pos hle

theorem byte_of_not_isByte (h : ¬IsByte text) : byte text = .error (.invalidByte text) := by
  unfold byte
  cases hvalue : decimal? text.toList with
  | none => rfl
  | some n => exact if_neg fun hle => h ⟨n, hvalue, hle⟩

theorem exists_int_of_isWord (h : IsWord text) : ∃ value, int text = .ok value := by
  obtain ⟨n, hvalue, hrange⟩ := h
  refine ⟨Int32.ofInt n, ?_⟩
  unfold int
  rw [hvalue]
  exact if_pos hrange

theorem int_of_not_isWord (h : ¬IsWord text) : int text = .error (.invalidInt text) := by
  unfold int
  cases hvalue : signedDecimal? text.toList with
  | none => rfl
  | some n => exact if_neg fun hrange => h ⟨n, hvalue, hrange⟩

theorem exists_hexBytes? {digits : List Char} (hdigits : ∀ c ∈ digits, isHexDigit c = true)
    (heven : digits.length % 2 = 0) : ∃ values, hexBytes? digits = some values := by
  fun_induction hexBytes? digits with
  | case1 => exact ⟨[], rfl⟩
  | case2 c => cases heven
  | case3 high low rest ih =>
    rw [List.forall_mem_cons, List.forall_mem_cons] at hdigits
    obtain ⟨hhigh, hlow, hrest⟩ := hdigits
    obtain ⟨h, hh⟩ := Option.isSome_iff_exists.1 hhigh
    obtain ⟨l, hl⟩ := Option.isSome_iff_exists.1 hlow
    obtain ⟨values, hvalues⟩ := ih hrest (by rwa [List.length_cons, List.length_cons, Nat.add_assoc,
      Nat.add_mod_right] at heven)
    exact ⟨(16 * h + l).toUInt8 :: values, by rw [hh, hl, hvalues]; rfl⟩

theorem utf8ByteSize_of_hexDigits (hdigits : ∀ c ∈ text.toList, isHexDigit c = true) :
    text.utf8ByteSize = text.length := by
  have hascii : ∀ c ∈ text.toList, c.toNat ≤ 127 := by
    intro c hc
    have hdigit := isHexDigit_iff.1 (hdigits c hc)
    omega
  rw [← String.length_toList, ← utf8ByteSize_ofList hascii, String.ofList_toList]

theorem exists_hex_of_even (hdigits : ∀ c ∈ text.toList, isHexDigit c = true) (heven : text.length % 2 = 0) :
    ∃ values, hex text = .ok values := by
  obtain ⟨values, hvalues⟩ := exists_hexBytes? hdigits (by rwa [String.length_toList])
  refine ⟨values, ?_⟩
  unfold hex
  rw [utf8ByteSize_of_hexDigits hdigits, if_neg (by omega), hvalues]

theorem hex_of_odd (hdigits : ∀ c ∈ text.toList, isHexDigit c = true) (hodd : text.length % 2 = 1) :
    hex text = .error (.oddLengthHex text) := by
  unfold hex
  rw [utf8ByteSize_of_hexDigits hdigits, if_pos hodd]

end Literal

/-! ### Sentences -/

/-- The tokens of one item, and the label that it defines. -/
inductive Phrase : List PlacedToken → Option String → Prop
  | byte {text : String} {k : Nat} (htext : Literal.IsByte text) : Phrase [⟨.byteLiteral text, k⟩] none
  | opcode {op : Opcode} {word : String} {k : Nat} (hword : op.WrittenAs word) : Phrase [⟨.identifier word, k⟩] none
  | label {word name : String} {j k : Nat} (hword : Directive.label.WrittenAs word) :
      Phrase [⟨.identifier word, j⟩, ⟨.identifier name, k⟩] (some name)
  | word {word text : String} {j k : Nat} (hword : Directive.int.WrittenAs word) (htext : Literal.IsWord text) :
      Phrase [⟨.identifier word, j⟩, ⟨.intLiteral text, k⟩] none
  | reference {word name : String} {j k : Nat} (hword : Directive.int.WrittenAs word) :
      Phrase [⟨.identifier word, j⟩, ⟨.identifier name, k⟩] none
  | bytes {word digits : String} {j k : Nat} (hword : Directive.hex.WrittenAs word)
      (heven : digits.length % 2 = 0) : Phrase [⟨.identifier word, j⟩, ⟨.hexSequence digits, k⟩] none

/-- Phrases one after the other.  None of them defines a label that is defined already. -/
inductive Sentence : (String → Prop) → List PlacedToken → Prop
  | nil {defined : String → Prop} : Sentence defined []
  | cons {defined : String → Prop} {front back : List PlacedToken} {label? : Option String}
      (hfront : Phrase front label?) (hfresh : ∀ name, label? = some name → ¬defined name)
      (hback : Sentence (fun name => defined name ∨ label? = some name) back) : Sentence defined (front ++ back)

/-- The tokens that can begin a phrase. -/
def Token.Begins : Token → Prop
  | byteLiteral _ => True
  | identifier _ => True
  | _ => False

/-- The tokens that a directive can have as its operand. -/
def Directive.Takes : Directive → Token → Prop
  | label, .identifier _ => True
  | int, .identifier _ => True
  | int, .intLiteral _ => True
  | hex, .hexSequence _ => True
  | _, _ => False

/-- A token that no phrase can go on with, and the error that it makes on its line.  A directive at the end of the
tokens makes an error on its own line. -/
inductive Flaw (defined : String → Prop) : List PlacedToken → AssemblyError → Prop
  | statement {token : Token} {k : Nat} {rest : List PlacedToken} (htoken : ¬token.Begins) :
      Flaw defined (⟨token, k⟩ :: rest) ⟨.unexpectedToken .statement token, some (k + 1)⟩
  | byte {text : String} {k : Nat} {rest : List PlacedToken} (htext : ¬Literal.IsByte text) :
      Flaw defined (⟨.byteLiteral text, k⟩ :: rest) ⟨.encode (.invalidByte text), some (k + 1)⟩
  | opcode {word : String} {k : Nat} {rest : List PlacedToken} (hdirective : ∀ directive : Directive,
      ¬directive.WrittenAs word) (hop : ∀ op : Opcode, ¬op.WrittenAs word) :
      Flaw defined (⟨.identifier word, k⟩ :: rest) ⟨.encode (.unknownMnemonic word), some (k + 1)⟩
  | missing {directive : Directive} {word : String} {j : Nat} (hword : directive.WrittenAs word) :
      Flaw defined [⟨.identifier word, j⟩] ⟨.missingOperand directive, some (j + 1)⟩
  | operand {directive : Directive} {word : String} {token : Token} {j k : Nat} {rest : List PlacedToken}
      (hword : directive.WrittenAs word) (htoken : ¬directive.Takes token) :
      Flaw defined (⟨.identifier word, j⟩ :: ⟨token, k⟩ :: rest)
        ⟨.unexpectedToken (.operand directive) token, some (k + 1)⟩
  | label {word name : String} {j k : Nat} {rest : List PlacedToken} (hword : Directive.label.WrittenAs word)
      (hname : defined name) :
      Flaw defined (⟨.identifier word, j⟩ :: ⟨.identifier name, k⟩ :: rest) ⟨.duplicateLabel name, some (k + 1)⟩
  | word {word text : String} {j k : Nat} {rest : List PlacedToken} (hword : Directive.int.WrittenAs word)
      (htext : ¬Literal.IsWord text) :
      Flaw defined (⟨.identifier word, j⟩ :: ⟨.intLiteral text, k⟩ :: rest)
        ⟨.encode (.invalidInt text), some (k + 1)⟩
  | bytes {word digits : String} {j k : Nat} {rest : List PlacedToken} (hword : Directive.hex.WrittenAs word)
      (hodd : digits.length % 2 = 1) :
      Flaw defined (⟨.identifier word, j⟩ :: ⟨.hexSequence digits, k⟩ :: rest)
        ⟨.encode (.oddLengthHex digits), some (k + 1)⟩

/-- A flaw behind phrases that are all right. -/
inductive Broken : (String → Prop) → List PlacedToken → AssemblyError → Prop
  | here {defined : String → Prop} {tokens : List PlacedToken} {error : AssemblyError}
      (h : Flaw defined tokens error) : Broken defined tokens error
  | later {defined : String → Prop} {front back : List PlacedToken} {label? : Option String} {error : AssemblyError}
      (hfront : Phrase front label?) (hfresh : ∀ name, label? = some name → ¬defined name)
      (hback : Broken (fun name => defined name ∨ label? = some name) back error) :
      Broken defined (front ++ back) error

/-! ### Every sequence of tokens is a sentence or broken -/

theorem Phrase.ne_nil {tokens : List PlacedToken} {label? : Option String} (h : Phrase tokens label?) :
    tokens ≠ [] := by
  cases h <;> exact List.cons_ne_nil _ _

/-- The tokens start with a phrase that is all right, or with a flaw. -/
private def Starts (defined : String → Prop) (tokens : List PlacedToken) : Prop :=
  (∃ front back label?, tokens = front ++ back ∧ Phrase front label? ∧ ∀ name, label? = some name → ¬defined name) ∨
    ∃ error, Flaw defined tokens error

private theorem starts_of_operand (defined : String → Prop) {directive : Directive} {word : String}
    (hword : directive.WrittenAs word) (j : Nat) (operand : PlacedToken) (rest : List PlacedToken) :
    Starts defined (⟨.identifier word, j⟩ :: operand :: rest) := by
  obtain ⟨token, k⟩ := operand
  by_cases htakes : directive.Takes token
  · cases directive with
    | label =>
      cases token with
      | identifier name =>
        by_cases hname : defined name
        · exact Or.inr ⟨_, .label hword hname⟩
        · exact Or.inl ⟨_, rest, _, rfl, .label hword, fun other h => Option.some.inj h ▸ hname⟩
      | _ => cases htakes
    | int =>
      cases token with
      | identifier name => exact Or.inl ⟨_, rest, _, rfl, .reference hword, nofun⟩
      | intLiteral text =>
        by_cases htext : Literal.IsWord text
        · exact Or.inl ⟨_, rest, _, rfl, .word hword htext, nofun⟩
        · exact Or.inr ⟨_, .word hword htext⟩
      | _ => cases htakes
    | hex =>
      cases token with
      | hexSequence digits =>
        rcases Nat.mod_two_eq_zero_or_one digits.length with heven | hodd
        · exact Or.inl ⟨_, rest, _, rfl, .bytes hword heven, nofun⟩
        · exact Or.inr ⟨_, .bytes hword hodd⟩
      | _ => cases htakes
  · exact Or.inr ⟨_, .operand hword htakes⟩

private theorem starts (defined : String → Prop) (first : PlacedToken) (tokens : List PlacedToken) :
    Starts defined (first :: tokens) := by
  obtain ⟨token, k⟩ := first
  by_cases hbegins : token.Begins
  · cases token with
    | byteLiteral text =>
      by_cases htext : Literal.IsByte text
      · exact Or.inl ⟨_, tokens, _, rfl, .byte htext, nofun⟩
      · exact Or.inr ⟨_, .byte htext⟩
    | identifier word =>
      by_cases hdirective : ∃ directive : Directive, directive.WrittenAs word
      · obtain ⟨directive, hword⟩ := hdirective
        cases tokens with
        | nil => exact Or.inr ⟨_, .missing hword⟩
        | cons operand rest => exact starts_of_operand defined hword k operand rest
      · by_cases hop : ∃ op : Opcode, op.WrittenAs word
        · obtain ⟨op, hword⟩ := hop
          exact Or.inl ⟨_, tokens, _, rfl, .opcode hword, nofun⟩
        · exact Or.inr ⟨_, .opcode (not_exists.1 hdirective) (not_exists.1 hop)⟩
    | _ => cases hbegins
  · exact Or.inr ⟨_, .statement hbegins⟩

theorem sentence_or_broken (defined : String → Prop) (tokens : List PlacedToken) :
    Sentence defined tokens ∨ ∃ error, Broken defined tokens error := by
  induction hlength : tokens.length using Nat.strongRecOn generalizing defined tokens with
  | ind length ih =>
    cases tokens with
    | nil => exact Or.inl .nil
    | cons first tokens =>
      rcases starts defined first tokens with ⟨front, back, label?, hsplit, hfront, hfresh⟩ | ⟨error, hflaw⟩
      · have hpos := List.length_pos_iff.2 hfront.ne_nil
        rw [hsplit, List.length_append] at hlength
        rw [hsplit]
        rcases ih back.length (by omega) _ back rfl with hback | ⟨error, hback⟩
        · exact Or.inl (.cons hfront hfresh hback)
        · exact Or.inr ⟨error, .later hfront hfresh hback⟩
      · exact Or.inr ⟨error, .here hflaw⟩

end RegisterMachine
