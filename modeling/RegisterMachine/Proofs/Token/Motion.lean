import RegisterMachine.Token.Cursor

/-!
# Motion

How a cursor moves over its text.  Reading a token is going on by some characters (`Cursor.exists_next_eq_advance`),
and going on only moves bytes and newlines from the text in front of the cursor to the text behind it.
-/

namespace RegisterMachine

theorem utf8Length_append (front back : List Char) :
    utf8Length (front ++ back) = utf8Length front + utf8Length back := by
  induction front with
  | nil => rw [List.nil_append, utf8Length, Nat.zero_add]
  | cons c front ih => rw [List.cons_append, utf8Length, ih, utf8Length, Nat.add_assoc]

namespace Cursor

theorem advance_advance (cursor : Cursor) (m n : Nat) : (cursor.advance m).advance n = cursor.advance (m + n) := by
  unfold advance
  simp only [List.drop_drop, List.take_add, utf8Length_append, List.count_append, Nat.add_assoc]

/-- No newline is lost. -/
theorem newlines_advance_add_count (cursor : Cursor) (n : Nat) :
    (cursor.advance n).newlines + (cursor.advance n).rest.count '\n' = cursor.newlines + cursor.rest.count '\n' := by
  have hsplit := congrArg (List.count '\n') (List.take_append_drop n cursor.rest)
  rw [List.count_append] at hsplit
  simp only [advance]
  omega

/-- No byte is lost. -/
theorem position_advance_add_length (cursor : Cursor) (n : Nat) :
    (cursor.advance n).position + utf8Length (cursor.advance n).rest = cursor.position + utf8Length cursor.rest := by
  have hsplit := congrArg utf8Length (List.take_append_drop n cursor.rest)
  rw [utf8Length_append] at hsplit
  simp only [advance]
  omega

theorem skipGap_eq_advance (cursor : Cursor) : cursor.skipGap = cursor.advance (gapLength false cursor.rest) := rfl

theorem next_eq (mode : Mode) (cursor : Cursor) : cursor.next mode =
    (Token.lexeme mode cursor.skipGap.rest,
      cursor.skipGap.advance (Token.lexeme mode cursor.skipGap.rest).text.length) := rfl

theorem exists_next_eq_advance (mode : Mode) (cursor : Cursor) : ∃ n, (cursor.next mode).2 = cursor.advance n := by
  rw [next_eq, skipGap_eq_advance, advance_advance]
  exact ⟨_, rfl⟩

/-- The number of lines of the whole text, in front of the cursor and behind it. -/
def lineCount (cursor : Cursor) : Nat := cursor.newlines + cursor.rest.count '\n' + 1

theorem lineCount_next (mode : Mode) (cursor : Cursor) : (cursor.next mode).2.lineCount = cursor.lineCount := by
  obtain ⟨n, hadvance⟩ := exists_next_eq_advance mode cursor
  rw [hadvance, lineCount, newlines_advance_add_count, lineCount]

end Cursor

end RegisterMachine
