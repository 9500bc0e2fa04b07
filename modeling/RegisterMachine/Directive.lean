import RegisterMachine.Token.Basic

/-!
# Directives

Words of source text that tell what to make of the token behind them.
-/

namespace RegisterMachine

/-- A directive defines a label, or writes an integer or the address of a label, or writes a hex sequence. -/
inductive Directive where
  | label
  | int
  | hex
deriving DecidableEq, Repr

namespace Directive

def all : List Directive := [label, int, hex]

/-- The word for the directive in source text. -/
def keyword : Directive → String
  | label => "label"
  | int => "int"
  | hex => "hex"

/-- What the reader of the directive's operand is ready for. -/
def mode : Directive → Mode
  | label => .name
  | int => .integer
  | hex => .hex

/-- The directive with the given keyword, in letters of either case. -/
def ofWord? (word : String) : Option Directive := all.find? fun directive => sameLetters directive.keyword word

@[simp] theorem ofWord?_keyword (directive : Directive) : ofWord? directive.keyword = some directive := by
  cases directive <;> decide

end Directive

end RegisterMachine
