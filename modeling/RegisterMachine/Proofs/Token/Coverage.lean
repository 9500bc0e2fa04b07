import RegisterMachine.Proofs.Token.Shape

/-!
# Coverage

A reader leaves nothing out, whatever it is ready for from token to token: the gaps that it skips and the tokens that
it finds are the text in front of its cursor, piece by piece (`Cursor.StandsBehind.afterReads`).  It finds the end of
input exactly where nothing but a gap is left, and stays there (`Cursor.next_eq_endOfInput_iff`,
`Cursor.next_afterReads_of_rest_eq_nil`).
-/

namespace RegisterMachine

theorem utf8Length_eq (cs : List Char) : utf8Length cs = (String.ofList cs).utf8ByteSize := by
  induction cs with
  | nil => rfl
  | cons c cs ih => rw [utf8Length, ih, String.ofList_cons, String.utf8ByteSize_append, String.utf8ByteSize_singleton]

theorem utf8Length_pos {cs : List Char} (h : cs ≠ []) : 0 < utf8Length cs := by
  cases cs with
  | nil => exact absurd rfl h
  | cons c cs =>
    have hsize := c.utf8Size_pos
    rw [utf8Length]
    omega

namespace Cursor

/-- The text between the cursor and the next token. -/
def gap (cursor : Cursor) : List Char := cursor.rest.take (gapLength false cursor.rest)

/-- The cursor behind one token after the other, each read in a mode of its own. -/
def afterReads (cursor : Cursor) (modes : List Mode) : Cursor :=
  modes.foldl (fun cursor mode => (cursor.next mode).2) cursor

/-- What a reader passes: each token with the gap in front of it. -/
def reads (cursor : Cursor) : List Mode → List (List Char × Token)
  | [] => []
  | mode :: modes => (cursor.gap, (cursor.next mode).1) :: (cursor.next mode).2.reads modes

/-! ### One token -/

variable {cursor : Cursor}

theorem skipGap_rest_eq_append (mode : Mode) (cursor : Cursor) :
    cursor.skipGap.rest = (cursor.next mode).1.text.toList ++ (cursor.next mode).2.rest := by
  obtain ⟨back, hback⟩ := Token.text_lexeme_isPrefix mode cursor.skipGap.rest
  have hrest : (cursor.next mode).2.rest = back := by
    show (cursor.skipGap.rest).drop (cursor.next mode).1.text.length = back
    rw [← hback, ← String.length_toList]
    exact List.drop_left
  rw [hrest]
  exact hback.symm

/-- The end of input is where nothing but a gap is left. -/
theorem next_eq_endOfInput_iff {mode : Mode} : (cursor.next mode).1 = .endOfInput ↔ LastGap cursor.rest := by
  constructor
  · intro hend
    rcases lastGap_or_exists_gap cursor.rest with hlast | ⟨gap, rest, hsplit, hgap, hne, hlength⟩
    · exact hlast
    · have hbehind : cursor.skipGap.rest = rest := by
        rw [skipGap, advance, hsplit, hgap.gapLength_append, hlength, Nat.add_zero, List.drop_left]
      exact absurd (hbehind ▸ (Token.lexeme_eq_endOfInput_iff mode).1 hend) hne
  · exact next_of_lastGap

theorem text_ne_nil_of_next {mode : Mode} (h : (cursor.next mode).1 ≠ .endOfInput) :
    (cursor.next mode).1.text.toList ≠ [] := by
  have hne : cursor.skipGap.rest ≠ [] := fun hnil => h ((Token.lexeme_eq_endOfInput_iff mode).2 hnil)
  have hpos := Token.length_text_lexeme_pos mode hne
  rwa [← String.length_toList, List.length_pos_iff] at hpos

/-- What is skipped in front of a token is a gap. -/
theorem gap_of_next {mode : Mode} (h : (cursor.next mode).1 ≠ .endOfInput) : Gap cursor.gap := by
  rcases lastGap_or_exists_gap cursor.rest with hlast | ⟨gap, rest, hsplit, hgap, -, hlength⟩
  · exact absurd (next_of_lastGap hlast) h
  · rw [Cursor.gap, hsplit, hgap.gapLength_append, hlength, Nat.add_zero, List.take_left]
    exact hgap

theorem lastGap_of_next {mode : Mode} (h : (cursor.next mode).1 = .endOfInput) :
    LastGap cursor.gap ∧ (cursor.next mode).2.rest = [] := by
  have hlast := next_eq_endOfInput_iff.1 h
  have hnil : cursor.skipGap.rest = [] := (Token.lexeme_eq_endOfInput_iff mode).1 h
  constructor
  · rw [Cursor.gap, hlast.gapLength_eq, List.take_length]
    exact hlast
  · exact (List.append_eq_nil_iff.1 ((skipGap_rest_eq_append mode cursor).symm.trans hnil)).2

/-- At the end of its text a reader finds the end of input for good. -/
theorem next_afterReads_of_rest_eq_nil (h : cursor.rest = []) (modes : List Mode) (mode : Mode) :
    ((cursor.afterReads modes).next mode).1 = .endOfInput := by
  induction modes generalizing cursor with
  | nil => exact next_of_lastGap (h ▸ .gap .nil)
  | cons first modes ih =>
    apply ih
    exact (lastGap_of_next (next_of_lastGap (h ▸ .gap .nil))).2

/-! ### All tokens -/

theorem gap_of_mem_reads {modes : List Mode} {read : List Char × Token} (h : read ∈ cursor.reads modes) :
    Gap read.1 ∨ read.2 = .endOfInput ∧ LastGap read.1 := by
  induction modes generalizing cursor with
  | nil => cases h
  | cons mode modes ih =>
    rw [reads, List.mem_cons] at h
    rcases h with rfl | hlater
    · by_cases hend : (cursor.next mode).1 = .endOfInput
      · exact Or.inr ⟨hend, (lastGap_of_next hend).1⟩
      · exact Or.inl (gap_of_next hend)
    · exact ih hlater

/-- The cursor stands in the source behind the text in front of it. -/
structure StandsBehind (source : String) (front : List Char) (cursor : Cursor) : Prop where
  split : source.toList = front ++ cursor.rest
  position_eq : cursor.position = utf8Length front
  newlines_eq : cursor.newlines = front.count '\n'

/-- What a reader has passed, piece by piece. -/
def passed (reads : List (List Char × Token)) : List Char :=
  reads.flatMap fun read => read.1 ++ read.2.text.toList

namespace StandsBehind

variable {source : String} {front : List Char}

theorem start (source : String) : StandsBehind source [] (Cursor.start source) := ⟨rfl, rfl, rfl⟩

theorem advance (h : StandsBehind source front cursor) (n : Nat) :
    StandsBehind source (front ++ cursor.rest.take n) (cursor.advance n) where
  split := by rw [h.split, List.append_assoc, Cursor.advance, List.take_append_drop]
  position_eq := by rw [Cursor.advance, h.position_eq, utf8Length_append]
  newlines_eq := by rw [Cursor.advance, h.newlines_eq, List.count_append]

theorem skipGap (h : StandsBehind source front cursor) : StandsBehind source (front ++ cursor.gap) cursor.skipGap :=
  h.advance _

/-- A token goes on behind the gap and the text of the token. -/
theorem next (h : StandsBehind source front cursor) (mode : Mode) :
    StandsBehind source (front ++ cursor.gap ++ (cursor.next mode).1.text.toList) (cursor.next mode).2 := by
  have hnext := h.skipGap.advance (cursor.next mode).1.text.length
  rwa [skipGap_rest_eq_append mode cursor, ← String.length_toList, List.take_left, String.length_toList] at hnext

theorem afterReads (h : StandsBehind source front cursor) (modes : List Mode) :
    StandsBehind source (front ++ passed (cursor.reads modes)) (cursor.afterReads modes) := by
  induction modes generalizing cursor front with
  | nil => rwa [reads, passed, List.flatMap_nil, List.append_nil]
  | cons mode modes ih =>
    have hlast := ih (h.next mode)
    rw [List.append_assoc, List.append_assoc] at hlast
    rwa [reads, passed, List.flatMap_cons, List.append_assoc]

theorem count_le (h : StandsBehind source front cursor) : front.count '\n' ≤ source.toList.count '\n' := by
  rw [h.split, List.count_append]
  exact Nat.le_add_right _ _

/-- The line of a cursor in a source with fewer than 2^32 lines. -/
theorem line_eq (h : StandsBehind source front cursor) (hlines : source.toList.count '\n' + 1 < 4294967296) :
    cursor.line = 1 + front.count '\n' := by
  have hle := h.count_le
  rw [Cursor.line, h.newlines_eq]
  omega

theorem isValid (h : StandsBehind source front cursor) : String.Pos.Raw.IsValid source ⟨cursor.position⟩ := by
  rw [String.Pos.Raw.isValid_iff_exists_append]
  refine ⟨String.ofList front, String.ofList cursor.rest, ?_, ?_⟩
  · rw [← String.ofList_append, ← h.split, String.ofList_toList]
  · rw [h.position_eq, utf8Length_eq]
    rfl

/-- A token leaves the cursor further on in its source. -/
theorem position_lt (h : StandsBehind source front cursor) {mode : Mode} (hne : (cursor.next mode).1 ≠ .endOfInput) :
    cursor.position < (cursor.next mode).2.position := by
  have htext := utf8Length_pos (text_ne_nil_of_next hne)
  rw [h.position_eq, (h.next mode).position_eq, utf8Length_append, utf8Length_append]
  omega

end StandsBehind

/-- Tokens may be read in any modes: the gaps that the reader skips and the texts of the tokens, put together, are the
source in front of the cursor, which stands on a boundary of its characters.  A token that is not the end of input has
a text; it follows the gap that was skipped and ends where the cursor stands then, further on than before.  The end of
input is found exactly where nothing but blanks and comments are left.  The cursor is at the end of the source then,
and finds nothing else ever after.  In a source with fewer than 2^32 lines the cursor stands on the line that the
newlines in front of it say, and that is also the line of the token that it has just passed. -/
theorem reads_cover_source (source : String) (modes : List Mode) (mode : Mode) :
    let reads := (start source).reads modes
    let cursor := (start source).afterReads modes
    let token := (cursor.next mode).1
    let behind := (cursor.next mode).2
    source.toList = passed reads ++ cursor.rest ∧
    cursor.position = (String.ofList (passed reads)).utf8ByteSize ∧
    String.Pos.Raw.IsValid source ⟨cursor.position⟩ ∧
    (∀ read ∈ reads, Gap read.1 ∨ read.2 = .endOfInput ∧ LastGap read.1) ∧
    (token ≠ .endOfInput → token.text ≠ "" ∧ cursor.position < behind.position ∧ Gap cursor.gap ∧
      source.toList = passed reads ++ cursor.gap ++ token.text.toList ++ behind.rest ∧
      behind.position = (String.ofList (passed reads ++ cursor.gap ++ token.text.toList)).utf8ByteSize) ∧
    (token = .endOfInput ↔ LastGap cursor.rest) ∧
    (token = .endOfInput → behind.position = source.utf8ByteSize ∧
      ∀ more other, ((behind.afterReads more).next other).1 = .endOfInput) ∧
    (source.toList.count '\n' + 1 < 4294967296 → cursor.line = 1 + (passed reads).count '\n' ∧
      (token ≠ .endOfInput → behind.line = 1 + (passed reads ++ cursor.gap).count '\n')) := by
  intro reads cursor token behind
  have hcursor : StandsBehind source (passed reads) cursor := (StandsBehind.start source).afterReads modes
  have hbehind : StandsBehind source (passed reads ++ cursor.gap ++ token.text.toList) behind := hcursor.next mode
  refine ⟨hcursor.split, ?_, hcursor.isValid, fun _ => gap_of_mem_reads, ?_, next_eq_endOfInput_iff, ?_, ?_⟩
  · rw [hcursor.position_eq, utf8Length_eq]
  · intro hne
    refine ⟨?_, hcursor.position_lt hne, gap_of_next hne, hbehind.split, ?_⟩
    · intro hempty
      exact text_ne_nil_of_next hne (by rw [hempty]; rfl)
    · rw [hbehind.position_eq, utf8Length_eq]
  · intro hend
    have hrest := (lastGap_of_next hend).2
    refine ⟨?_, next_afterReads_of_rest_eq_nil hrest⟩
    rw [hbehind.position_eq, utf8Length_eq, ← List.append_nil (_ ++ _), ← hrest, ← hbehind.split, String.ofList_toList]
  · intro hlines
    refine ⟨hcursor.line_eq hlines, fun _ => ?_⟩
    -- The token itself holds no newline.
    have hcount := List.count_eq_zero.2 (hasShape_next mode cursor).newline_notMem
    rw [hbehind.line_eq hlines, List.count_append, hcount, Nat.add_zero]

/-- A name is read as hex digits and what they leave of it, between comments with characters of two bytes.  The second
comment goes on to the end of the source. -/
theorem reads_cover_source_two_comments :
    let source := "// é\n dust# é"
    let cursor := (start source).afterReads [.hex, .name]
    source.toList.count '\n' + 1 < 4294967296 ∧
      (start source).reads [.hex, .name] = [("// é\n ".toList, .hexSequence "d"), ([], .identifier "ust")] ∧
      cursor.position = 11 ∧ cursor.line = 2 ∧ LastGap cursor.rest ∧ (cursor.next .integer).2.position = 15 ∧
      ∀ more other, (((cursor.next .integer).2.afterReads more).next other).1 = .endOfInput := by
  intro source cursor
  have hlines : source.toList.count '\n' + 1 < 4294967296 := by decide +kernel
  have hreads : (start source).reads [.hex, .name] =
      [("// é\n ".toList, .hexSequence "d"), ([], .identifier "ust")] := by decide +kernel
  have hend : (cursor.next .integer).1 = .endOfInput := by decide +kernel
  obtain ⟨-, hposition, -, -, -, hlast, hbehind, hline⟩ := reads_cover_source source [.hex, .name] .integer
  rw [hreads] at hposition hline
  exact ⟨hlines, hreads, hposition.trans (by decide +kernel), (hline hlines).1.trans (by decide +kernel), hlast.1 hend,
    (hbehind hend).1.trans (by decide +kernel), (hbehind hend).2⟩

end Cursor

end RegisterMachine
