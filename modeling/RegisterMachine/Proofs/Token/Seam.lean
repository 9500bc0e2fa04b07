import RegisterMachine.Proofs.Token.Motion

/-!
# Seams

A newline is a seam of source text: whatever ends at the end of a text also ends in front of a newline, comments and
blanks included.  A reader of two texts with a newline between them reads the tokens of the first one as if it stood
alone (`Cursor.next_append`), and where the first one has no token left it goes on with the second one
(`Cursor.next_append_of_endOfInput`).
-/

namespace RegisterMachine

/-- The gap that a text starts with reaches over a newline only if it reaches the newline. -/
theorem gapLength_append_newline (inComment : Bool) (front back : List Char) :
    gapLength inComment (front ++ '\n' :: back) =
      if gapLength inComment front < front.length then gapLength inComment front
      else front.length + 1 + gapLength false back := by
  induction front generalizing inComment with
  | nil =>
    have hblank : isBlank '\n' = true := by decide
    have hnewline : ('\n' != '\n') = false := by decide
    cases inComment with
    | true =>
      simp only [List.nil_append, gapLength, hnewline, List.length_nil, Nat.lt_irrefl, if_false]
      omega
    | false =>
      simp only [List.nil_append, gapLength, hblank, List.length_nil, Nat.lt_irrefl, if_true, if_false]
      omega
  | cons c cs ih =>
    -- Every case but the last one goes on behind the character, inside a comment or outside.
    have hstep (inside : Bool) :
        gapLength inside (cs ++ '\n' :: back) + 1 =
          if gapLength inside cs + 1 < (c :: cs).length then gapLength inside cs + 1
          else (c :: cs).length + 1 + gapLength false back := by
      rw [ih inside, List.length_cons]
      by_cases hlt : gapLength inside cs < cs.length
      · rw [if_pos hlt, if_pos (by omega)]
      · rw [if_neg hlt, if_neg (by omega)]
        omega
    cases inComment with
    | true =>
      rw [List.cons_append, gapLength, gapLength]
      exact hstep _
    | false =>
      have hhead : (cs ++ '\n' :: back).head? = some '/' ↔ cs.head? = some '/' := by
        cases cs with
        | nil => simp
        | cons d cs => simp
      rw [List.cons_append, gapLength, gapLength]
      simp only [hhead]
      by_cases hblank : isBlank c = true
      · simp only [if_pos hblank]
        exact hstep false
      · by_cases hcomment : c = '#' ∨ (c = '/' ∧ cs.head? = some '/')
        · simp only [if_neg hblank, if_pos hcomment]
          exact hstep true
        · simp only [if_neg hblank, if_neg hcomment]
          rw [if_pos (by simp)]

private theorem takeWhile_append_newline {p : Char → Bool} (hp : p '\n' = false) (front back : List Char) :
    (front ++ '\n' :: back).takeWhile p = front.takeWhile p := by
  induction front with
  | nil => rw [List.nil_append, List.takeWhile_cons_of_neg (by simp [hp]), List.takeWhile_nil]
  | cons c cs ih => rw [List.cons_append, List.takeWhile_cons, List.takeWhile_cons, ih]

/-- No token reaches over a newline. -/
theorem Token.lexeme_append_newline (mode : Mode) {front : List Char} (h : front ≠ []) (back : List Char) :
    lexeme mode (front ++ '\n' :: back) = lexeme mode front := by
  cases front with
  | nil => exact absurd rfl h
  | cons c cs =>
    simp only [List.cons_append, lexeme, takeWhile_append_newline (p := Char.isDigit) (by decide),
      takeWhile_append_newline (p := isHexDigit) (by decide), takeWhile_append_newline (p := isNameRest) (by decide)]

namespace Cursor

/-- The cursor in a text that goes on with a newline and more behind it. -/
def append (cursor : Cursor) (back : List Char) : Cursor := { cursor with rest := cursor.rest ++ '\n' :: back }

/-- The cursor behind the newline that follows the whole text. -/
def beyond (cursor : Cursor) (back : List Char) : Cursor where
  rest := back
  position := cursor.position + utf8Length cursor.rest + 1
  newlines := cursor.newlines + cursor.rest.count '\n' + 1

variable {cursor : Cursor} {mode : Mode}

theorem beyond_eq_advance (cursor : Cursor) (back : List Char) :
    cursor.beyond back = (cursor.append back).advance (cursor.rest.length + 1) := by
  have hwhole : cursor.rest ++ '\n' :: back = (cursor.rest ++ ['\n']) ++ back := by simp
  have hlength : cursor.rest.length + 1 = (cursor.rest ++ ['\n']).length := by simp
  have hsize : '\n'.utf8Size = 1 := by decide
  simp only [beyond, advance, append, hwhole, hlength, List.drop_left, List.take_left, utf8Length_append, utf8Length,
    List.count_append, List.count_singleton_self, hsize, Nat.add_assoc, Nat.add_zero]

private theorem advance_append (cursor : Cursor) (back : List Char) {n : Nat} (h : n ≤ cursor.rest.length) :
    (cursor.append back).advance n = (cursor.advance n).append back := by
  simp only [append, advance, List.drop_append_of_le_length h, List.take_append_of_le_length h]

/-- Wherever the cursor goes in the first text, the second one begins at the same place. -/
theorem beyond_advance (cursor : Cursor) (back : List Char) (n : Nat) :
    (cursor.advance n).beyond back = cursor.beyond back := by
  unfold beyond
  rw [newlines_advance_add_count, position_advance_add_length]

/-- A token of the first text is read as if the second one did not follow. -/
theorem next_append (h : (cursor.next mode).1 ≠ .endOfInput) (back : List Char) :
    (cursor.append back).next mode = ((cursor.next mode).1, (cursor.next mode).2.append back) := by
  have hne : cursor.skipGap.rest ≠ [] := fun hnil => h ((Token.lexeme_eq_endOfInput_iff mode).2 hnil)
  have hgap : gapLength false cursor.rest < cursor.rest.length := by
    have hpos := List.length_pos_iff.2 hne
    simp only [skipGap, advance, List.length_drop] at hpos
    omega
  have hskip : (cursor.append back).skipGap = cursor.skipGap.append back := by
    have hlength : gapLength false (cursor.append back).rest = gapLength false cursor.rest := by
      show gapLength false (cursor.rest ++ '\n' :: back) = _
      rw [gapLength_append_newline, if_pos hgap]
    rw [skipGap_eq_advance, skipGap_eq_advance, hlength, advance_append _ _ (Nat.le_of_lt hgap)]
  have htoken : Token.lexeme mode (cursor.skipGap.append back).rest = Token.lexeme mode cursor.skipGap.rest :=
    Token.lexeme_append_newline mode hne back
  have hlength : (Token.lexeme mode cursor.skipGap.rest).text.length ≤ cursor.skipGap.rest.length := by
    rw [← String.length_toList]
    exact (Token.text_lexeme_isPrefix mode _).length_le
  rw [next_eq, next_eq, hskip, htoken, advance_append _ _ hlength]

/-- Where the first text has no token left, the reader goes on with the second one. -/
theorem next_append_of_endOfInput (h : (cursor.next mode).1 = .endOfInput) (back : List Char) (other : Mode) :
    (cursor.append back).next other = (cursor.beyond back).next other := by
  have hnil : cursor.skipGap.rest = [] := (Token.lexeme_eq_endOfInput_iff mode).1 h
  have hgap : ¬gapLength false cursor.rest < cursor.rest.length := by
    simp only [skipGap, advance, List.drop_eq_nil_iff] at hnil
    omega
  have hskip : (cursor.append back).skipGap = (cursor.beyond back).skipGap := by
    have hlength : gapLength false (cursor.append back).rest = cursor.rest.length + 1 + gapLength false back := by
      show gapLength false (cursor.rest ++ '\n' :: back) = _
      rw [gapLength_append_newline, if_neg hgap]
    rw [skipGap_eq_advance, skipGap_eq_advance, hlength, beyond_eq_advance, advance_advance, ← beyond_eq_advance]
    rfl
  rw [next_eq, next_eq, hskip]

/-! ### The same text further on -/

/-- The cursor at the same text that stands further on in its source. -/
def later (cursor : Cursor) (bytes newlines : Nat) : Cursor :=
  { cursor with position := cursor.position + bytes, newlines := cursor.newlines + newlines }

theorem next_later (mode : Mode) (cursor : Cursor) (bytes newlines : Nat) :
    (cursor.later bytes newlines).next mode = ((cursor.next mode).1, (cursor.next mode).2.later bytes newlines) := by
  simp only [next, skipGap, later, advance, Prod.mk.injEq, Cursor.mk.injEq, true_and]
  omega

end Cursor

end RegisterMachine
