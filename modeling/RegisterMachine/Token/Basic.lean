import RegisterMachine.Text.CharClass

/-!
# Tokens

A token is the smallest piece of source text with a meaning of its own.  Which token a text starts with depends on
what the reader is ready for: a minus sign belongs to a number only where an integer is read, and letters are hex
digits only where a hex sequence is read.

* `Token.text_lexeme_isPrefix`: the characters of a token are the first characters of the text it was read from.
* `Token.length_text_lexeme_pos`: the token of a text that is not empty has a character.
-/

namespace RegisterMachine

inductive Token where
  | byteLiteral (text : String)
  | identifier (text : String)
  | intLiteral (text : String)
  | hexSequence (text : String)
  | punctuation (character : Char)
  | endOfInput
deriving DecidableEq, Repr

/-- What the reader of a token is ready for. -/
inductive Mode where
  | plain
  | integer
  | hex
  | name
deriving DecidableEq, Repr

namespace Token

/-- The characters of source text that make the token. -/
def text : Token → String
  | byteLiteral text => text
  | identifier text => text
  | intLiteral text => text
  | hexSequence text => text
  | punctuation character => String.singleton character
  | endOfInput => ""

/-- The token as error messages name it. -/
def describe : Token → String
  | byteLiteral text => s!"byte literal `{text}`"
  | identifier text => s!"identifier `{text}`"
  | intLiteral text => s!"integer literal `{text}`"
  | hexSequence text => s!"hex sequence `{text}`"
  | punctuation character => s!"character `{character}`"
  | endOfInput => "end of input"

/-- The token that a text starts with, for a text that starts with neither a blank nor a comment.  Runs of digits,
hex digits and name characters are as long as they can be. -/
def lexeme (mode : Mode) : List Char → Token
  | [] => endOfInput
  | c :: cs =>
    if mode = .integer ∧ c = '-' then
      match cs.takeWhile Char.isDigit with
      | [] => punctuation '-'
      | digits => intLiteral (String.ofList ('-' :: digits))
    else if mode = .hex ∧ isHexDigit c then hexSequence (String.ofList (c :: cs.takeWhile isHexDigit))
    else if c.isDigit then
      let digits := String.ofList (c :: cs.takeWhile Char.isDigit)
      if mode = .integer then intLiteral digits else byteLiteral digits
    else if isNameStart c then identifier (String.ofList (c :: cs.takeWhile isNameRest))
    else punctuation c

/-- The characters of a token are the first characters of the text it was read from. -/
theorem text_lexeme_isPrefix (mode : Mode) (cs : List Char) : (lexeme mode cs).text.toList <+: cs := by
  fun_cases lexeme mode cs with
  | case1 => simp [text]
  | case2 c cs h => simp [text, h.2]
  | case3 c cs h => simpa [text, h.2] using List.takeWhile_prefix Char.isDigit
  | case4 c cs => simpa [text] using List.takeWhile_prefix isHexDigit
  | case5 c cs => simpa +zetaDelta [text] using List.takeWhile_prefix Char.isDigit
  | case6 c cs => simpa +zetaDelta [text] using List.takeWhile_prefix Char.isDigit
  | case7 c cs => simpa [text] using List.takeWhile_prefix isNameRest
  | case8 => simp [text]

/-- The token of a text that is not empty has a character. -/
theorem length_text_lexeme_pos (mode : Mode) {cs : List Char} (h : cs ≠ []) :
    0 < (lexeme mode cs).text.length := by
  rw [← String.length_toList]
  fun_cases lexeme mode cs with
  | case1 => exact absurd rfl h
  | case2 | case8 => simp [text]
  | case3 | case4 | case5 | case6 | case7 =>
    simp +zetaDelta only [text, String.toList_ofList, List.length_cons, Nat.zero_lt_succ]

/-- Only the end of input has no token. -/
theorem lexeme_eq_endOfInput_iff (mode : Mode) {cs : List Char} : lexeme mode cs = endOfInput ↔ cs = [] := by
  fun_cases lexeme mode cs <;> simp

example : lexeme .integer ['-', '4', '2', 'x'] = intLiteral "-42" := by decide

example : lexeme .hex ['a', 'b', 'x'] = hexSequence "ab" ∧ lexeme .plain ['a', 'b', 'x'] = identifier "abx" := by
  decide

end Token

end RegisterMachine
