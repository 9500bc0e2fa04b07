import RegisterMachine.Assembly.Error
import RegisterMachine.Item.Basic
import RegisterMachine.Token.Cursor

/-!
# Chunks

A chunk is what one source text says: its items in order, and the error that ended the reading if the text does not
read to its end.  Reading looks at the text alone, so a chunk does not depend on what was loaded before it.

* `SourceItem.rest_read_lt`: reading an item moves the cursor on.
-/

namespace RegisterMachine

/-- An item and the line of its last token. -/
structure SourceItem where
  item : Item
  line : Nat
deriving DecidableEq, Repr

/-- The directive that a token names. -/
def Token.directive? : Token → Option Directive
  | identifier word => Directive.ofWord? word
  | _ => none

/-- The item that a token makes on its own. -/
def Item.ofToken : Token → Except AssemblyError.Cause Item
  | .byteLiteral text => ((Literal.byte text).map byte).mapError .encode
  | .identifier name => ((Literal.mnemonic name).map opcode).mapError .encode
  | found => .error (.unexpectedToken .statement found)

/-- The item that a directive makes of the token behind it. -/
def Item.ofOperand : Directive → Token → Except AssemblyError.Cause Item
  | .label, .identifier name => .ok (label name)
  | .int, .intLiteral text => ((Literal.int text).map word).mapError .encode
  | .int, .identifier name => .ok (reference name)
  | .hex, .hexSequence text => ((Literal.hex text).map bytes).mapError .encode
  | directive, .endOfInput => .error (.missingOperand directive)
  | directive, found => .error (.unexpectedToken (.operand directive) found)

namespace SourceItem

/-- An item that ends at the cursor on the given line, or the error that its tokens make there. -/
def place (line : Nat) (cursor : Cursor) :
    Except AssemblyError.Cause Item → Except AssemblyError (Option (SourceItem × Cursor))
  | .ok item => .ok (some (⟨item, line⟩, cursor))
  | .error cause => .error ⟨cause, some line⟩

/-- The item that follows the cursor and the cursor behind it, or nothing at the end of the text.  An error belongs
to the line of the token it is about; a directive without operand is reported on its own line. -/
def read (cursor : Cursor) : Except AssemblyError (Option (SourceItem × Cursor)) :=
  let step := cursor.next .plain
  if step.1 = .endOfInput then .ok none
  else match step.1.directive? with
    | none => place step.2.line step.2 (Item.ofToken step.1)
    | some directive =>
      let last := step.2.next directive.mode
      let line := if last.1 = .endOfInput then step.2.line else last.2.line
      place line last.2 (Item.ofOperand directive last.1)

private theorem eq_of_place {line : Nat} {cursor behind : Cursor} {result : Except AssemblyError.Cause Item}
    {item : SourceItem} (h : place line cursor result = .ok (some (item, behind))) : behind = cursor := by
  cases result <;> simp_all [place]

/-- Reading an item moves the cursor on. -/
theorem rest_read_lt {cursor behind : Cursor} {item : SourceItem}
    (h : read cursor = .ok (some (item, behind))) : behind.rest.length < cursor.rest.length := by
  unfold read at h
  dsimp only at h
  split at h
  · cases h
  · rename_i hne
    have hlt := Cursor.rest_next_lt hne
    split at h
    · rw [eq_of_place h]
      exact hlt
    · rw [eq_of_place h]
      exact Nat.lt_of_le_of_lt (Cursor.rest_next_le _ _) hlt

end SourceItem

/-- The items of a text in order, up to the error that ended the reading if there is one. -/
structure Chunk where
  items : List SourceItem
  failure : Option AssemblyError
deriving DecidableEq, Repr

namespace Chunk

/-- What follows the cursor. -/
def ofCursor (cursor : Cursor) : Chunk :=
  match _ : SourceItem.read cursor with
  | .error error => ⟨[], some error⟩
  | .ok none => ⟨[], none⟩
  | .ok (some (item, behind)) =>
    let others := ofCursor behind
    { others with items := item :: others.items }
termination_by cursor.rest.length
decreasing_by exact SourceItem.rest_read_lt ‹_›

theorem ofCursor_eq (cursor : Cursor) : ofCursor cursor =
    match SourceItem.read cursor with
    | .error error => ⟨[], some error⟩
    | .ok none => ⟨[], none⟩
    | .ok (some (item, behind)) => ⟨item :: (ofCursor behind).items, (ofCursor behind).failure⟩ := by
  rw [ofCursor]
  split <;> simp_all

def ofSource (source : String) : Chunk := ofCursor (Cursor.start source)

end Chunk

end RegisterMachine
