import RegisterMachine.Opcode
import RegisterMachine.Word

/-!
# Items

What source text is made of: each item stands for a fixed number of bytes of the program.
-/

namespace RegisterMachine

inductive Item where
  | byte (value : UInt8)
  | opcode (op : Opcode)
  | word (value : Word)
  | bytes (values : List UInt8)
  | label (name : String)
  | reference (name : String)
deriving DecidableEq, Repr

/-- The bytes that an item adds to the code when it is loaded.  A reference holds the place of a word with zeros,
and a label takes no room. -/
def Item.toBytes : Item → List UInt8
  | byte value => [value]
  | opcode op => [op.toByte]
  | word value => value.toBytes
  | bytes values => values
  | label _ => []
  | reference _ => [0, 0, 0, 0]

end RegisterMachine
