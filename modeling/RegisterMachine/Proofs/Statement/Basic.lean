import RegisterMachine.Instruction
import RegisterMachine.Proofs.Assembly.Image
import RegisterMachine.Proofs.Item.Rendering

/-!
# Statements

Programs as they are meant: instructions, one of which may take the address of a label in place of a word, and labels
between them.  A list of statements has a source text, one line for each statement, and with a base address it stands
for a list of instructions (`Statement.instructions`).  The source text renders items whose image is the bytes of
these instructions (`Statement.rendering_source`, `Statement.bytes_items`).
-/

namespace RegisterMachine

/-- A name that source text can give to a label. -/
abbrev Name := { name : String // IsName name.toList }

/-- What a register is set to: a word, or the address of a label. -/
inductive Operand where
  | literal (value : Word)
  | address (name : Name)
deriving DecidableEq

inductive Statement where
  | noop
  | setReg (dest : UInt8) (operand : Operand)
  | copyReg (dest source : UInt8)
  | xor (dest source : UInt8)
  | push (source : UInt8)
  | label (name : Name)
deriving DecidableEq

namespace Statement

/-! ### What statements stand for -/

/-- The number of bytes of the program that the statement takes. -/
def size : Statement → Nat
  | noop => 1
  | setReg _ _ => 6
  | copyReg _ _ => 3
  | xor _ _ => 3
  | push _ => 2
  | label _ => 0

def totalSize : List Statement → Nat
  | [] => 0
  | statement :: statements => statement.size + totalSize statements

/-- The label that the statement defines. -/
def definition? : Statement → Option String
  | label name => some name.val
  | _ => none

/-- The label that the statement refers to. -/
def reference? : Statement → Option String
  | setReg _ (.address name) => some name.val
  | _ => none

/-- The total size of the statements in front of a label. -/
def offset? (name : String) : List Statement → Option Nat
  | [] => none
  | statement :: statements =>
    if statement.definition? = some name then some 0
    else (offset? name statements).map fun offset => statement.size + offset

/-- The address of a label in a program that is loaded at the base. -/
def address (base : Int) (statements : List Statement) (name : String) : Int :=
  base + ((offset? name statements).getD 0 : Nat)

/-- The instruction that the statement is when labels have the given addresses. -/
def instruction? (address : String → Int) : Statement → Option Instruction
  | noop => some .noop
  | setReg dest (.literal value) => some (.setReg dest value)
  | setReg dest (.address name) => some (.setReg dest (.ofInt (address name)))
  | copyReg dest source => some (.copyReg dest source)
  | xor dest source => some (.xor dest source)
  | push source => some (.push source)
  | label _ => none

/-- The instructions of a program that is loaded at the base. -/
def instructions (base : Int) (statements : List Statement) : List Instruction :=
  statements.filterMap (instruction? (address base statements))

/-! ### Their source text -/

/-- The words of the statement in source text. -/
def words : Statement → List (List Char)
  | noop => ["noop".toList]
  | setReg dest (.literal value) =>
    ["setreg".toList, numeral 0 dest.toNat, "int".toList, signedNumeral value.toInt]
  | setReg dest (.address name) => ["setreg".toList, numeral 0 dest.toNat, "int".toList, name.val.toList]
  | copyReg dest source => ["copyreg".toList, numeral 0 dest.toNat, numeral 0 source.toNat]
  | xor dest source => ["xor".toList, numeral 0 dest.toNat, numeral 0 source.toNat]
  | push source => ["push".toList, numeral 0 source.toNat]
  | label name => ["label".toList, name.val.toList]

/-- The statement on a line of its own. -/
def line (statement : Statement) : List Char := List.intercalate [' '] statement.words ++ ['\n']

/-- The source text of several statements. -/
def source (statements : List Statement) : String := String.ofList (statements.flatMap line)

example : source [.setReg 1 (.literal (-5)), .copyReg 0 1, .push 0] = "setreg 1 int -5\ncopyreg 0 1\npush 0\n" := by
  decide

/-! ### The items that the text says -/

/-- The items that the source text of the statement says. -/
def items : Statement → List Item
  | noop => [.opcode .noop]
  | setReg dest (.literal value) => [.opcode .setReg, .byte dest, .word value]
  | setReg dest (.address name) => [.opcode .setReg, .byte dest, .reference name.val]
  | copyReg dest source => [.opcode .copyReg, .byte dest, .byte source]
  | xor dest source => [.opcode .xor, .byte dest, .byte source]
  | push source => [.opcode .push, .byte source]
  | label name => [.label name.val]

private theorem spellings_words (statement : Statement) : Item.Spellings statement.items statement.words := by
  have hopcode (op : Opcode) : Item.Spelling (.opcode op) [op.mnemonic.toList] := .opcode op (Cased.refl _)
  have hbyte (value : UInt8) : Item.Spelling (.byte value) [numeral 0 value.toNat] := .byte value 0
  cases statement with
  | noop => exact .cons (hopcode .noop) .nil
  | setReg dest operand =>
    cases operand with
    | literal value => exact .cons (hopcode .setReg) (.cons (hbyte dest) (.cons (.word value (Cased.refl _)) .nil))
    | address name =>
      exact .cons (hopcode .setReg) (.cons (hbyte dest) (.cons (.reference name.property (Cased.refl _)) .nil))
  | copyReg dest source => exact .cons (hopcode .copyReg) (.cons (hbyte dest) (.cons (hbyte source) .nil))
  | xor dest source => exact .cons (hopcode .xor) (.cons (hbyte dest) (.cons (hbyte source) .nil))
  | push source => exact .cons (hopcode .push) (.cons (hbyte source) .nil)
  | label name => exact .cons (.label name.property (Cased.refl _)) .nil

private theorem spellings_flatMap_words (statements : List Statement) :
    Item.Spellings (statements.flatMap items) (statements.flatMap words) := by
  induction statements with
  | nil => exact .nil
  | cons statement statements ih =>
    rw [List.flatMap_cons, List.flatMap_cons]
    exact (spellings_words statement).append ih

/-- A line ends where a gap starts, so the next line follows its words. -/
private theorem exists_words_line (statement : Statement) {words : List (List Char)} {cs : List Char}
    (h : Following words ('\n' :: cs)) :
    ∃ word others tail, statement.words = word :: others ∧ statement.line ++ cs = word ++ tail ∧
      Following (others ++ words) tail := by
  obtain ⟨word, others, hwords⟩ : ∃ word others, statement.words = word :: others := by
    unfold Statement.words
    split <;> exact ⟨_, _, rfl⟩
  obtain ⟨tail, htail, hfollowing⟩ := h.exists_intercalate word others
  refine ⟨word, others, tail, hwords, ?_, hfollowing⟩
  rw [line, hwords, List.append_assoc]
  exact htail

private theorem following_lines (statements : List Statement) :
    Following (statements.flatMap words) ('\n' :: statements.flatMap line) := by
  have hnewline : Gap ['\n'] := .blank (by decide) .nil
  induction statements with
  | nil => exact .last (.gap hnewline)
  | cons statement statements ih =>
    obtain ⟨word, others, tail, hwords, hline, hfollowing⟩ := exists_words_line statement ih
    rw [List.flatMap_cons, List.flatMap_cons, hwords, hline]
    exact .word hnewline (List.cons_ne_nil _ _) hfollowing

/-- The source text of statements says their items. -/
theorem rendering_source (statements : List Statement) :
    Rendering (statements.flatMap items) (source statements).toList := by
  refine ⟨_, spellings_flatMap_words statements, ?_⟩
  rw [source, String.toList_ofList]
  cases statements with
  | nil => exact .last (.gap .nil)
  | cons statement statements =>
    -- Only the first line has no newline in front of it.
    obtain ⟨word, others, tail, hwords, hline, hfollowing⟩ :=
      exists_words_line statement (following_lines statements)
    rw [List.flatMap_cons, List.flatMap_cons, hwords, hline]
    exact .word .nil hfollowing

/-! ### The bytes of the items -/

theorem size_items (statement : Statement) : Image.size statement.items = statement.size := by
  unfold items
  split <;> rfl

theorem size_flatMap_items (statements : List Statement) :
    Image.size (statements.flatMap items) = totalSize statements := by
  induction statements with
  | nil => rfl
  | cons statement statements ih => rw [List.flatMap_cons, Image.size_append, size_items, ih, totalSize]

private theorem offset?_items (name : String) (statement : Statement) :
    Image.offset? name statement.items = if statement.definition? = some name then some 0 else none := by
  unfold items
  split <;> simp [Image.offset?, Item.definition?, definition?]

theorem offset?_flatMap_items (name : String) (statements : List Statement) :
    Image.offset? name (statements.flatMap items) = offset? name statements := by
  induction statements with
  | nil => rfl
  | cons statement statements ih =>
    rw [List.flatMap_cons, Image.offset?_append, offset?_items, size_items, ih, offset?]
    by_cases hname : statement.definition? = some name
    · rw [if_pos hname, if_pos hname, Option.some_or]
    · rw [if_neg hname, if_neg hname, Option.none_or]

private theorem filterMap_flatMap_items {α : Type} {f : Item → Option α} {g : Statement → Option α}
    (h : ∀ statement : Statement, statement.items.filterMap f = (g statement).toList) (statements : List Statement) :
    (statements.flatMap items).filterMap f = statements.filterMap g := by
  induction statements with
  | nil => rfl
  | cons statement statements ih =>
    rw [List.flatMap_cons, List.filterMap_append, h, ih, List.filterMap_cons]
    cases g statement <;> rfl

theorem definitions_flatMap_items (statements : List Statement) :
    Image.definitions (statements.flatMap items) = statements.filterMap definition? := by
  apply filterMap_flatMap_items
  intro statement
  unfold items
  split <;> rfl

theorem references_flatMap_items (statements : List Statement) :
    Image.references (statements.flatMap items) = statements.filterMap reference? := by
  apply filterMap_flatMap_items
  intro statement
  unfold items
  split <;> rfl

private theorem flatMap_image_items (address : String → Int) (statement : Statement) :
    statement.items.flatMap (Item.image address) =
      (statement.instruction? address).toList.flatMap Instruction.toBytes := by
  unfold items
  split <;> rfl

private theorem flatMap_image_flatMap_items (address : String → Int) (statements : List Statement) :
    (statements.flatMap items).flatMap (Item.image address) =
      (statements.filterMap (instruction? address)).flatMap Instruction.toBytes := by
  induction statements with
  | nil => rfl
  | cons statement statements ih =>
    rw [List.flatMap_cons, List.flatMap_append, flatMap_image_items, ih, List.filterMap_cons]
    cases statement.instruction? address with
    | none => rfl
    | some instruction => rw [List.flatMap_cons, Option.toList_some, List.flatMap_singleton]

/-- The image of the items is the bytes of the instructions. -/
theorem bytes_items (base : Int) (statements : List Statement) :
    Image.bytes base (statements.flatMap items) = (instructions base statements).flatMap Instruction.toBytes := by
  have haddress : Image.address base (statements.flatMap items) = address base statements := by
    funext name
    rw [Image.address, offset?_flatMap_items, address]
  rw [Image.bytes, haddress, flatMap_image_flatMap_items, instructions]

end Statement

end RegisterMachine
