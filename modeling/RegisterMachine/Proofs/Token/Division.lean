import RegisterMachine.Proofs.Token.Coverage
import RegisterMachine.Proofs.Token.Seam

/-!
# Division

All tokens of a text, read one after the other.  The reader always comes to the end of the text (`Cursor.tokens_last`),
and what it reads of a text that goes on behind a newline is what it reads of both parts (`Cursor.tokens_append`).  So
a text may be divided at any of its newlines, whatever they end: `Cursor.tokens_divided_at_newline`.
-/

namespace RegisterMachine.Cursor

variable {cursor : Cursor}

theorem tokens_of_endOfInput (h : (cursor.next .plain).1 = .endOfInput) :
    cursor.tokens = ([], (cursor.next .plain).2) := by
  rw [tokens]
  exact dif_pos h

theorem tokens_of_next {token : Token} {behind : Cursor} (h : cursor.next .plain = (token, behind))
    (hne : token ≠ .endOfInput) : cursor.tokens = (token :: behind.tokens.1, behind.tokens.2) := by
  rw [tokens]
  simp only [h]
  exact dif_neg hne

/-- Induction along the tokens of a text, all read in the same mode. -/
theorem tokensInduction {motive : Cursor → Prop}
    (stop : ∀ cursor, (cursor.next .plain).1 = .endOfInput → motive cursor)
    (step : ∀ cursor token behind, cursor.next .plain = (token, behind) → token ≠ .endOfInput → motive behind →
      motive cursor) (cursor : Cursor) : motive cursor :=
  if hend : (cursor.next .plain).1 = .endOfInput then stop cursor hend
  else step cursor _ _ rfl hend (tokensInduction stop step _)
termination_by cursor.rest.length
decreasing_by exact rest_next_lt hend

/-! ### The end of the text -/

/-- However far a cursor goes on that comes to the end of its text, it goes on by the whole text. -/
theorem advance_eq_of_rest_eq_nil {n : Nat} (h : (cursor.advance n).rest = []) :
    cursor.advance n = cursor.advance cursor.rest.length := by
  have hle : cursor.rest.length ≤ n := List.drop_eq_nil_iff.1 h
  simp only [advance, List.drop_of_length_le hle, List.take_of_length_le hle, List.drop_length, List.take_length]

/-- All tokens together take the cursor to the end of the text. -/
theorem tokens_last (cursor : Cursor) : cursor.tokens.2 = cursor.advance cursor.rest.length := by
  induction cursor using tokensInduction with
  | stop cursor hend =>
    obtain ⟨n, hadvance⟩ := exists_next_eq_advance .plain cursor
    have hrest := (lastGap_of_next hend).2
    rw [hadvance] at hrest
    rw [tokens_of_endOfInput hend]
    exact hadvance.trans (advance_eq_of_rest_eq_nil hrest)
  | step cursor token behind hnext hne ih =>
    obtain ⟨n, hadvance⟩ := exists_next_eq_advance .plain cursor
    have hbehind : behind = cursor.advance n := by rw [← hadvance, hnext]
    rw [tokens_of_next hnext hne, ih, hbehind, advance_advance]
    apply advance_eq_of_rest_eq_nil
    rw [← advance_advance, advance, List.drop_length]

theorem tokens_start_last (source : String) :
    (start source).tokens.2 = ⟨[], source.utf8ByteSize, source.toList.count '\n'⟩ := by
  have hsize : utf8Length source.toList = source.utf8ByteSize := by rw [utf8Length_eq, String.ofList_toList]
  rw [tokens_last]
  simp only [advance, start, List.drop_length, List.take_length, hsize, Nat.zero_add]

/-! ### Two parts -/

/-- Cursors with the same next token have the same tokens. -/
private theorem tokens_congr {other : Cursor} (h : cursor.next .plain = other.next .plain) :
    cursor.tokens = other.tokens := by
  by_cases hend : (other.next .plain).1 = .endOfInput
  · rw [tokens_of_endOfInput hend, tokens_of_endOfInput (h ▸ hend), h]
  · rw [tokens_of_next rfl hend, tokens_of_next h hend]

/-- The tokens of two texts with a newline between them are those of the first one, then those of the second one. -/
theorem tokens_append (cursor : Cursor) (back : List Char) :
    (cursor.append back).tokens =
      (cursor.tokens.1 ++ (cursor.beyond back).tokens.1, (cursor.beyond back).tokens.2) := by
  induction cursor using tokensInduction with
  | stop cursor hend =>
    -- The newline belongs to the gap between the last token of the first text and the first one of the second text.
    rw [tokens_of_endOfInput hend, List.nil_append]
    exact tokens_congr (next_append_of_endOfInput hend back .plain)
  | step cursor token behind hnext hne ih =>
    have hfirst : (cursor.next .plain).1 ≠ .endOfInput := by rwa [hnext]
    have happend := next_append hfirst back
    rw [hnext] at happend
    -- The second text begins at the same place, however far the first one is read.
    obtain ⟨n, hadvance⟩ := exists_next_eq_advance .plain cursor
    have hbeyond : behind.beyond back = cursor.beyond back := by
      rw [← beyond_advance cursor back n, ← hadvance, hnext]
    rw [tokens_of_next happend hne, tokens_of_next hnext hne, ih, hbeyond, List.cons_append]

/-- The same text further on in its source has the same tokens. -/
theorem tokens_later (cursor : Cursor) (bytes newlines : Nat) :
    (cursor.later bytes newlines).tokens = (cursor.tokens.1, cursor.tokens.2.later bytes newlines) := by
  induction cursor using tokensInduction with
  | stop cursor hend =>
    have hlater := next_later .plain cursor bytes newlines
    have hendLater : ((cursor.later bytes newlines).next .plain).1 = .endOfInput := by rw [hlater, hend]
    rw [tokens_of_endOfInput hend, tokens_of_endOfInput hendLater, hlater]
  | step cursor token behind hnext hne ih =>
    have hlater := next_later .plain cursor bytes newlines
    rw [hnext] at hlater
    rw [tokens_of_next hnext hne, tokens_of_next hlater hne, ih]

/-- A text may be divided at a newline, wherever it stands: behind a word, a run of digits or a single slash, and also
inside a comment.  The tokens of the whole text are those of the first part, then those of the second part, the cursor
ends behind the last byte of the whole text, and the lines of the parts add up. -/
theorem tokens_divided_at_newline {front back : String}
    (hlines : (front.toList.count '\n' + 1) + (back.toList.count '\n' + 1) < 4294967296) :
    (start (front ++ "\n" ++ back)).tokens.1 = (start front).tokens.1 ++ (start back).tokens.1 ∧
    (start (front ++ "\n" ++ back)).tokens.2.position = (front ++ "\n" ++ back).utf8ByteSize ∧
    (start (front ++ "\n" ++ back)).tokens.2.line = (start front).tokens.2.line + (start back).tokens.2.line := by
  have htext : (front ++ "\n" ++ back).toList = front.toList ++ '\n' :: back.toList := by simp
  have hstart : start (front ++ "\n" ++ back) = (start front).append back.toList := by
    rw [start, htext]
    rfl
  have hbeyond : (start front).beyond back.toList =
      (start back).later (utf8Length front.toList + 1) (front.toList.count '\n' + 1) := by
    simp only [beyond, start, later, Nat.zero_add]
  refine ⟨?_, ?_, ?_⟩
  · rw [hstart, tokens_append, hbeyond, tokens_later]
  · rw [tokens_start_last]
  · rw [tokens_start_last, tokens_start_last, tokens_start_last, htext]
    simp only [line, List.count_append, List.count_cons_self]
    omega

/-- A slash on each side of the newline does not make a comment. -/
theorem tokens_divided_at_newline_slashes :
    (("é#/\n7/".toList.count '\n' + 1) + ("/42 x\n".toList.count '\n' + 1) < 4294967296) ∧
    (start ("é#/\n7/" ++ "\n" ++ "/42 x\n")).tokens.1 =
      [.punctuation 'é', .byteLiteral "7", .punctuation '/', .punctuation '/', .byteLiteral "42", .identifier "x"] ∧
    (start ("é#/\n7/" ++ "\n" ++ "/42 x\n")).tokens.2.position = 14 ∧
    (start ("é#/\n7/" ++ "\n" ++ "/42 x\n")).tokens.2.line = 4 := by
  have hlines : ("é#/\n7/".toList.count '\n' + 1) + ("/42 x\n".toList.count '\n' + 1) < 4294967296 := by
    decide +kernel
  obtain ⟨htokens, hposition, hline⟩ := tokens_divided_at_newline hlines
  exact ⟨hlines, htokens.trans (by decide +kernel), hposition.trans (by decide +kernel),
    hline.trans (by decide +kernel)⟩

end RegisterMachine.Cursor
