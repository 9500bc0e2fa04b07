import RegisterMachine.Token.Basic

/-!
# Cursors

A cursor stands at a place in source text and reads the tokens that follow.  Before each token it skips a gap of
blanks and comments; a comment starts with `#` or `//` and ends with its line.

* `Cursor.rest_next_lt`: every token but the end of input moves the cursor on, which is why reading all tokens ends.
-/

namespace RegisterMachine

/-- The number of bytes of a text in UTF-8. -/
def utf8Length : List Char → Nat
  | [] => 0
  | c :: cs => c.utf8Size + utf8Length cs

/-- The length of the gap that a text starts with.  The flag says whether the text starts inside a comment. -/
def gapLength : Bool → List Char → Nat
  | _, [] => 0
  | true, c :: cs => gapLength (c != '\n') cs + 1
  | false, c :: cs =>
    if isBlank c then gapLength false cs + 1
    else if c = '#' ∨ (c = '/' ∧ cs.head? = some '/') then gapLength true cs + 1
    else 0

/-- A place in source text: the text that follows, and how many bytes and newlines came before. -/
structure Cursor where
  rest : List Char
  position : Nat
  newlines : Nat
deriving DecidableEq, Repr

namespace Cursor

def start (source : String) : Cursor := ⟨source.toList, 0, 0⟩

/-- The line the cursor stands on, from 1.  The count stops at the largest number of 32 bits. -/
def line (cursor : Cursor) : Nat := min (cursor.newlines + 1) 4294967295

/-- The cursor `n` characters further on. -/
def advance (cursor : Cursor) (n : Nat) : Cursor where
  rest := cursor.rest.drop n
  position := cursor.position + utf8Length (cursor.rest.take n)
  newlines := cursor.newlines + (cursor.rest.take n).count '\n'

/-- The cursor behind the gap that follows. -/
def skipGap (cursor : Cursor) : Cursor := cursor.advance (gapLength false cursor.rest)

/-- The token that follows the gap, and the cursor behind it. -/
def next (mode : Mode) (cursor : Cursor) : Token × Cursor :=
  let behind := cursor.skipGap
  let token := Token.lexeme mode behind.rest
  (token, behind.advance token.text.length)

/-- Every token but the end of input moves the cursor on. -/
theorem rest_next_lt {mode : Mode} {cursor : Cursor} (h : (cursor.next mode).1 ≠ .endOfInput) :
    (cursor.next mode).2.rest.length < cursor.rest.length := by
  have hne : cursor.skipGap.rest ≠ [] := fun e => h ((Token.lexeme_eq_endOfInput_iff mode).2 e)
  have hlen := Token.length_text_lexeme_pos mode hne
  have hpos := List.length_pos_iff.2 hne
  simp only [skipGap, advance, List.length_drop] at hpos
  simp only [next, skipGap, advance, List.length_drop] at hlen ⊢
  omega

theorem rest_next_le (mode : Mode) (cursor : Cursor) :
    (cursor.next mode).2.rest.length ≤ cursor.rest.length := by
  simp only [next, skipGap, advance, List.length_drop]
  omega

/-- All tokens up to the end of input, and the cursor there. -/
def tokens (cursor : Cursor) : List Token × Cursor :=
  let step := cursor.next .plain
  if _ : step.1 = .endOfInput then ([], step.2)
  else
    let (others, last) := step.2.tokens
    (step.1 :: others, last)
termination_by cursor.rest.length
decreasing_by exact rest_next_lt ‹_›

end Cursor

end RegisterMachine
