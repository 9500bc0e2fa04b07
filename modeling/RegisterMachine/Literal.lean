import RegisterMachine.Opcode
import RegisterMachine.Text.Numeral
import RegisterMachine.Word

/-!
# Literals

What the texts of literals and mnemonics stand for, and why a text stands for nothing.
-/

namespace RegisterMachine

/-- Why a text cannot be encoded.  Each error carries the whole text. -/
inductive EncodeError where
  | invalidByte (text : String)
  | invalidInt (text : String)
  | oddLengthHex (text : String)
  | invalidHexDigit (text : String)
  | unknownMnemonic (text : String)
deriving DecidableEq, Repr

def EncodeError.message : EncodeError → String
  | invalidByte text => s!"`{text}` is not a byte literal between 0 and 255"
  | invalidInt text => s!"`{text}` is not an integer between -2147483648 and 2147483647"
  | oddLengthHex text => s!"hex sequence `{text}` has an odd number of digits"
  | invalidHexDigit text => s!"`{text}` contains a character that is not a hex digit"
  | unknownMnemonic text => s!"`{text}` is not a known mnemonic"

namespace Literal

/-- The value of a decimal numeral with an optional minus sign. -/
def signedDecimal? : List Char → Option Int
  | '-' :: digits => (decimal? digits).map fun n => -(n : Int)
  | digits => (decimal? digits).map fun n => (n : Int)

/-- A byte literal is a decimal numeral up to 255. -/
def byte (text : String) : Except EncodeError UInt8 :=
  match decimal? text.toList with
  | some n => if n ≤ 255 then .ok n.toUInt8 else .error (.invalidByte text)
  | none => .error (.invalidByte text)

/-- An integer literal is a signed decimal numeral in the range of a word. -/
def int (text : String) : Except EncodeError Word :=
  match signedDecimal? text.toList with
  | some n => if -2147483648 ≤ n ∧ n ≤ 2147483647 then .ok (Int32.ofInt n) else .error (.invalidInt text)
  | none => .error (.invalidInt text)

/-- A hex literal is a sequence of pairs of hex digits.  Its length is counted in bytes of UTF-8, and an odd length
is reported before a character that is no digit. -/
def hex (text : String) : Except EncodeError (List UInt8) :=
  if text.utf8ByteSize % 2 = 1 then .error (.oddLengthHex text)
  else match hexBytes? text.toList with
    | some bytes => .ok bytes
    | none => .error (.invalidHexDigit text)

def mnemonic (text : String) : Except EncodeError Opcode :=
  match Opcode.ofMnemonic? text with
  | some op => .ok op
  | none => .error (.unknownMnemonic text)

end Literal

end RegisterMachine
