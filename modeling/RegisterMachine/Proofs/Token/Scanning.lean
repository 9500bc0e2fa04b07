import RegisterMachine.Proofs.Token.Gap

/-!
# Scanning

Words with gaps between them.  Whatever the reader is ready for, the token it finds ends with its word: digits, hex
digits and names run to the next gap and stop there (`lexeme_of_isName` and the like), so a cursor in front of a word
goes on to the words behind it (`Cursor.next_of_word`).
-/

namespace RegisterMachine

/-! ### Words -/

/-- The text of a name. -/
def IsName : List Char → Prop
  | [] => False
  | c :: cs => isNameStart c = true ∧ ∀ d ∈ cs, isNameRest d = true

instance : DecidablePred IsName
  | [] => inferInstanceAs (Decidable False)
  | c :: cs =>
    decidable_of_iff (isNameStart c = true ∧ cs.all isNameRest = true) (by rw [IsName, List.all_eq_true])

theorem isNameRest_of_isNameStart {c : Char} (h : isNameStart c = true) : isNameRest c = true := by
  rw [isNameRest, h, Bool.true_or]

theorem isNameRest_of_isDigit {c : Char} (h : c.isDigit = true) : isNameRest c = true := by
  rw [isNameRest, h, Bool.or_true]

theorem isNameRest_of_isHexDigit {c : Char} (h : isHexDigit c = true) : isNameRest c = true := by
  rw [isHexDigit_iff] at h
  rw [isNameRest, Bool.or_eq_true, isNameStart_iff, isDigit_iff]
  omega

private theorem not_isDigit_of_isNameStart {c : Char} (h : isNameStart c = true) : ¬c.isDigit = true := by
  rw [isNameStart_iff] at h
  rw [isDigit_iff]
  omega

private theorem isNameStart_toUpper {c : Char} (h : isNameStart c = true) : isNameStart c.toUpper = true := by
  rcases toUpper_cases c with hsame | ⟨hlow, hhigh, hupper⟩
  · rw [hsame]
    exact h
  · rw [isNameStart_iff]
    omega

/-- Letters of either case make a name. -/
theorem Cased.isName {cs ds : List Char} (h : Cased cs ds) (hne : cs ≠ []) (hcs : ∀ c ∈ cs, isNameStart c = true) :
    IsName ds := by
  have hds := h.forall_mem (p := fun c => isNameStart c = true) (fun c => isNameStart_toUpper) hcs
  cases h with
  | nil => exact absurd rfl hne
  | same c h | upper c h =>
    rw [List.forall_mem_cons] at hds
    exact ⟨hds.1, fun d hd => isNameRest_of_isNameStart (hds.2 d hd)⟩

theorem Directive.isName_of_cased {directive : Directive} {text : List Char}
    (h : Cased directive.keyword.toList text) : IsName text :=
  h.isName (by cases directive <;> decide) (List.all_eq_true.1 (by cases directive <;> decide))

theorem Opcode.isName_of_cased {op : Opcode} {text : List Char} (h : Cased op.mnemonic.toList text) : IsName text :=
  h.isName (by cases op <;> decide) (List.all_eq_true.1 (by cases op <;> decide))

/-! ### The token of a word -/

namespace Token

variable {rest : List Char}

/-- Outside hex sequences a name is an identifier, whatever it spells. -/
theorem lexeme_of_isName {mode : Mode} (hmode : mode ≠ .hex) {word : List Char} (hword : IsName word)
    (hrest : StartsGap rest) : lexeme mode (word ++ rest) = identifier (String.ofList word) := by
  cases word with
  | nil => exact hword.elim
  | cons c cs =>
    have hminus : c ≠ '-' := by
      rintro rfl
      exact absurd hword.1 (by decide)
    rw [List.cons_append, lexeme, if_neg (fun h => hminus h.2), if_neg (fun h => hmode h.1),
      if_neg (not_isDigit_of_isNameStart hword.1), if_pos hword.1,
      takeWhile_of_startsGap (fun c hc => hc) hword.2 hrest]

theorem lexeme_of_numeral (zeros n : Nat) (hrest : StartsGap rest) :
    lexeme .plain (numeral zeros n ++ rest) = byteLiteral (String.ofList (numeral zeros n)) := by
  have hdigits : ∀ c ∈ numeral zeros n, c.isDigit = true := fun c hc => isDigit_of_mem_numeral hc
  cases hword : numeral zeros n with
  | nil => exact absurd hword (numeral_ne_nil zeros n)
  | cons c cs =>
    rw [hword, List.forall_mem_cons] at hdigits
    rw [List.cons_append, lexeme, if_neg (fun h => absurd h.1 (by decide)), if_neg (fun h => absurd h.1 (by decide)),
      if_pos hdigits.1,
      takeWhile_of_startsGap (fun c => isNameRest_of_isDigit) hdigits.2 hrest]
    exact if_neg (by decide)

theorem lexeme_integer_of_sign {digits rest : List Char} (h : Run Char.isDigit digits rest) :
    lexeme .integer ('-' :: (digits ++ rest)) = intLiteral (String.ofList ('-' :: digits)) := by
  rw [lexeme, if_pos ⟨rfl, rfl⟩, h.takeWhile_append]
  cases digits with
  | nil => exact absurd rfl h.ne_nil
  | cons d ds => rfl

theorem lexeme_of_signedNumeral (n : Int) (hrest : StartsGap rest) :
    lexeme .integer (signedNumeral n ++ rest) = intLiteral (String.ofList (signedNumeral n)) := by
  have hdigits : ∀ c ∈ numeral 0 n.natAbs, c.isDigit = true := fun c hc => isDigit_of_mem_numeral hc
  have hrun : Run Char.isDigit (numeral 0 n.natAbs) rest :=
    ⟨numeral_ne_nil 0 n.natAbs, hdigits, hrest.stops fun c => isNameRest_of_isDigit⟩
  unfold signedNumeral
  -- The sign is read apart from the digits behind it.
  by_cases hneg : n < 0
  · rw [if_pos hneg, List.cons_append, lexeme_integer_of_sign hrun]
  · rw [if_neg hneg]
    cases hword : numeral 0 n.natAbs with
    | nil => exact absurd hword (numeral_ne_nil 0 n.natAbs)
    | cons c cs =>
      rw [hword, List.forall_mem_cons] at hdigits
      have hminus : c ≠ '-' := by
        rintro rfl
        exact absurd hdigits.1 (by decide)
      rw [List.cons_append, lexeme, if_neg (fun h => hminus h.2), if_neg (fun h => absurd h.1 (by decide)),
        if_pos hdigits.1, takeWhile_of_startsGap (fun c => isNameRest_of_isDigit) hdigits.2 hrest]
      exact if_pos rfl

theorem lexeme_hex_of_isHexDigit {digits rest : List Char} (h : Run isHexDigit digits rest) :
    lexeme .hex (digits ++ rest) = hexSequence (String.ofList digits) := by
  cases digits with
  | nil => exact absurd rfl h.ne_nil
  | cons c cs =>
    have hc : isHexDigit c = true := h.forall_mem c List.mem_cons_self
    have hrun := h.takeWhile_append
    rw [List.cons_append, List.takeWhile_cons_of_pos hc, List.cons.injEq] at hrun
    rw [List.cons_append, lexeme, if_neg (by simp), if_pos ⟨rfl, hc⟩, hrun.2]

end Token

/-! ### Words with gaps between them -/

/-- The words in order, each behind a gap that is not empty. -/
inductive Following : List (List Char) → List Char → Prop
  | last {cs : List Char} (h : LastGap cs) : Following [] cs
  | word {gap word cs : List Char} {words : List (List Char)} (hgap : Gap gap) (hne : gap ≠ [])
      (h : Following words cs) : Following (word :: words) (gap ++ (word ++ cs))

/-- The words in order with gaps in front of them, between them and behind them.  Only those between them have to be
there. -/
inductive Spaced : List (List Char) → List Char → Prop
  | last {cs : List Char} (h : LastGap cs) : Spaced [] cs
  | word {gap word cs : List Char} {words : List (List Char)} (hgap : Gap gap) (h : Following words cs) :
      Spaced (word :: words) (gap ++ (word ++ cs))

theorem Following.startsGap {words : List (List Char)} {cs : List Char} (h : Following words cs) : StartsGap cs := by
  cases h with
  | last h => exact h.startsGap
  | word hgap hne h => exact hgap.startsGap hne _

theorem Following.spaced {words : List (List Char)} {cs : List Char} (h : Following words cs) : Spaced words cs := by
  cases h with
  | last h => exact .last h
  | word hgap hne h => exact .word hgap h

/-- Words with blanks between them follow each other. -/
theorem Following.exists_intercalate {words : List (List Char)} {cs : List Char} (h : Following words cs)
    (word : List Char) (others : List (List Char)) :
    ∃ tail, List.intercalate [' '] (word :: others) ++ cs = word ++ tail ∧ Following (others ++ words) tail := by
  induction others generalizing word with
  | nil => exact ⟨cs, by simp, h⟩
  | cons other others ih =>
    obtain ⟨tail, htail, hfollowing⟩ := ih other
    refine ⟨[' '] ++ (other ++ tail), ?_, .word (.blank (by decide) .nil) (List.cons_ne_nil _ _) hfollowing⟩
    rw [List.intercalate_cons_cons, List.append_assoc, htail, List.append_assoc]

theorem spaced_intercalate (words : List (List Char)) : Spaced words (List.intercalate [' '] words) := by
  cases words with
  | nil => exact .last (.gap .nil)
  | cons word others =>
    obtain ⟨tail, htail, hfollowing⟩ := Following.exists_intercalate (.last (.gap .nil)) word others
    rw [List.append_nil] at htail hfollowing
    rw [htail]
    exact .word .nil hfollowing

namespace Cursor

variable {cursor : Cursor} {mode : Mode}

theorem next_of_lastGap (h : LastGap cursor.rest) : (cursor.next mode).1 = .endOfInput := by
  have hrest : cursor.skipGap.rest = [] := by
    rw [skipGap, advance, h.gapLength_eq, List.drop_length]
  show Token.lexeme mode cursor.skipGap.rest = _
  rw [hrest, Token.lexeme]

/-- The cursor behind a word whose token is the whole word. -/
theorem next_of_word (mode : Mode) {gap word rest : List Char} {token : Token}
    (hcursor : cursor.rest = gap ++ (word ++ rest)) (hgap : Gap gap) (hstart : ¬StartsGap (word ++ rest))
    (htoken : Token.lexeme mode (word ++ rest) = token) (htext : token.text = String.ofList word) :
    (cursor.next mode).1 = token ∧ (cursor.next mode).2.rest = rest := by
  have hlength : gapLength false (word ++ rest) = 0 := by
    cases hword : word ++ rest with
    | nil => rw [gapLength]
    | cons c cs => exact gapLength_of_not_startsGap (hword ▸ hstart)
  have hbehind : cursor.skipGap.rest = word ++ rest := by
    rw [skipGap, advance, hcursor, hgap.gapLength_append, hlength, Nat.add_zero, List.drop_left]
  have hfirst : (cursor.next mode).1 = token := by
    show Token.lexeme mode cursor.skipGap.rest = token
    rw [hbehind, htoken]
  refine ⟨hfirst, ?_⟩
  show (cursor.skipGap.rest).drop (cursor.next mode).1.text.length = rest
  rw [hfirst, hbehind, htext, String.length_ofList, List.drop_left]

end Cursor

end RegisterMachine
