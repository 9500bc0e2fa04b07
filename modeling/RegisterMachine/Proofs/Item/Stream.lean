import RegisterMachine.Item.Chunk
import RegisterMachine.Proofs.Token.Seam
import RegisterMachine.Proofs.Token.Shape

/-!
# Streams

The tokens of a text as the reader of its items asks for them: behind a directive it is ready for the directive's
operand, behind any other token for a statement.  A newline between two texts is a seam of their tokens too, and the
second text only has to be read with what the first one left the reader ready for (`Cursor.stream_append`).
-/

namespace RegisterMachine

/-- A token and the number of newlines in front of it. -/
structure PlacedToken where
  token : Token
  newlines : Nat
deriving DecidableEq, Repr

namespace PlacedToken

/-- The line that the token stands on, from 1. -/
def line (placed : PlacedToken) : Nat := placed.newlines + 1

/-- The token further on in its source. -/
def later (lines : Nat) (placed : PlacedToken) : PlacedToken := { placed with newlines := placed.newlines + lines }

/-- The token on the line that is counted for it.  The count stops at the largest number of 32 bits. -/
def counted (placed : PlacedToken) : PlacedToken := { placed with newlines := min placed.newlines 4294967294 }

end PlacedToken

/-- What the reader is ready for behind a token.  The operand of a directive is no directive, whatever it spells. -/
def Mode.behind : Mode → PlacedToken → Mode
  | plain, placed =>
    match placed.token.directive? with
    | some directive => directive.mode
    | none => plain
  | _, _ => plain

/-- Where a token stands is of no consequence. -/
theorem Mode.behind_congr (mode : Mode) {placed other : PlacedToken} (h : placed.token = other.token) :
    mode.behind placed = mode.behind other := by
  cases mode with
  | plain => rw [behind, behind, h]
  | integer | hex | name => rfl

theorem Mode.behind_later (mode : Mode) (lines : Nat) (placed : PlacedToken) :
    mode.behind (placed.later lines) = mode.behind placed :=
  mode.behind_congr rfl

namespace Cursor

/-- The tokens up to the end of input. -/
def stream (mode : Mode) (cursor : Cursor) : List PlacedToken :=
  let step := cursor.next mode
  let placed : PlacedToken := ⟨step.1, cursor.skipGap.newlines⟩
  if _ : step.1 = .endOfInput then [] else placed :: step.2.stream (mode.behind placed)
termination_by cursor.rest.length
decreasing_by exact rest_next_lt ‹_›

variable {cursor : Cursor} {mode : Mode}

theorem stream_of_endOfInput (h : (cursor.next mode).1 = .endOfInput) : cursor.stream mode = [] := by
  rw [stream]
  exact dif_pos h

/-- The first token of a stream, placed by the cursor behind it. -/
theorem stream_of_next {token : Token} {behind : Cursor} (h : cursor.next mode = (token, behind))
    (hne : token ≠ .endOfInput) :
    cursor.stream mode = ⟨token, behind.newlines⟩ :: behind.stream (mode.behind ⟨token, behind.newlines⟩) := by
  have hnewlines := newlines_next mode cursor
  rw [stream]
  simp only [← hnewlines, h]
  exact dif_neg hne

/-- Induction along the tokens of a text. -/
theorem streamInduction {motive : Mode → Cursor → Prop}
    (stop : ∀ mode cursor, (cursor.next mode).1 = .endOfInput → motive mode cursor)
    (step : ∀ mode cursor token behind, cursor.next mode = (token, behind) → token ≠ .endOfInput →
      motive (mode.behind ⟨token, behind.newlines⟩) behind → motive mode cursor)
    (mode : Mode) (cursor : Cursor) : motive mode cursor :=
  if hend : (cursor.next mode).1 = .endOfInput then stop mode cursor hend
  else step mode cursor _ _ rfl hend (streamInduction stop step _ _)
termination_by cursor.rest.length
decreasing_by exact rest_next_lt ‹_›

/-- The tokens of a stream look like what they are. -/
theorem hasShape_of_mem_stream {placed : PlacedToken} (h : placed ∈ cursor.stream mode) :
    placed.token ≠ .endOfInput ∧ placed.token.HasShape := by
  induction mode, cursor using streamInduction with
  | stop mode cursor hend =>
    rw [stream_of_endOfInput hend] at h
    cases h
  | step mode cursor token behind hnext hne ih =>
    rw [stream_of_next hnext hne, List.mem_cons] at h
    rcases h with rfl | hbehind
    · have hshape := hasShape_next mode cursor
      rw [hnext] at hshape
      exact ⟨hne, hshape⟩
    · exact ih hbehind

/-- Each token stands on a line of the text. -/
theorem newlines_lt_of_mem_stream {placed : PlacedToken} (h : placed ∈ cursor.stream mode) :
    placed.newlines < cursor.lineCount := by
  induction mode, cursor using streamInduction with
  | stop mode cursor hend =>
    rw [stream_of_endOfInput hend] at h
    cases h
  | step mode cursor token behind hnext hne ih =>
    have hcount := lineCount_next mode cursor
    rw [hnext] at hcount
    rw [stream_of_next hnext hne, List.mem_cons] at h
    rcases h with rfl | hbehind
    · rw [← hcount, lineCount]
      dsimp only
      omega
    · exact hcount ▸ ih hbehind

/-- The tokens of two texts with a newline between them are those of the first one, then those of the second one. -/
theorem stream_append (mode : Mode) (cursor : Cursor) (back : List Char) :
    (cursor.append back).stream mode =
      cursor.stream mode ++ (cursor.beyond back).stream ((cursor.stream mode).foldl Mode.behind mode) := by
  induction mode, cursor using streamInduction with
  | stop mode cursor hend =>
    -- The gaps on both sides of the newline are skipped as one.
    have hnext := next_append_of_endOfInput hend back mode
    rw [stream_of_endOfInput hend, List.nil_append, List.foldl_nil]
    by_cases hlast : ((cursor.beyond back).next mode).1 = .endOfInput
    · rw [stream_of_endOfInput hlast, stream_of_endOfInput (hnext ▸ hlast)]
    · rw [stream_of_next rfl hlast, stream_of_next hnext hlast]
  | step mode cursor token behind hnext hne ih =>
    have hfirst : (cursor.next mode).1 ≠ .endOfInput := by rwa [hnext]
    have happend := next_append hfirst back
    rw [hnext] at happend
    -- The second text begins at the same place, however far the first one is read.
    obtain ⟨n, hadvance⟩ := exists_next_eq_advance mode cursor
    have hbeyond : behind.beyond back = cursor.beyond back := by
      rw [← beyond_advance cursor back n, ← hadvance, hnext]
    rw [stream_of_next hnext hne, stream_of_next happend hne, List.cons_append, List.foldl_cons, ← hbeyond]
    exact congrArg _ ih

/-- The same text further on in its source has the same tokens further on. -/
theorem stream_later (mode : Mode) (cursor : Cursor) (bytes newlines : Nat) :
    (cursor.later bytes newlines).stream mode = (cursor.stream mode).map (PlacedToken.later newlines) := by
  induction mode, cursor using streamInduction with
  | stop mode cursor hend =>
    have hlater : ((cursor.later bytes newlines).next mode).1 = .endOfInput := by rw [next_later, hend]
    rw [stream_of_endOfInput hend, stream_of_endOfInput hlater, List.map_nil]
  | step mode cursor token behind hnext hne ih =>
    have hlater := next_later mode cursor bytes newlines
    rw [hnext] at hlater
    rw [stream_of_next hnext hne, stream_of_next hlater hne, List.map_cons, ← ih,
      ← Mode.behind_later mode newlines ⟨token, behind.newlines⟩]
    rfl

end Cursor

end RegisterMachine
