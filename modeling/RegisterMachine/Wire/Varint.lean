/-!
# Numbers on the wire

A natural number is written in groups of seven bits, the lowest group first; every byte but the last has its highest
bit set.  Integers are first folded onto the natural numbers, so that numbers near zero stay short, and folding loses
nothing (`unzigzag_zigzag`).
-/

namespace RegisterMachine.Wire

/-- A number in groups of seven bits. -/
def varint (n : Nat) : List UInt8 :=
  if n < 128 then [n.toUInt8] else (n % 128 + 128).toUInt8 :: varint (n / 128)

/-- An action that takes bytes from the front of a list and may refuse them. -/
abbrev Decoder := StateT (List UInt8) Option

def takeByte : Decoder UInt8
  | [] => none
  | byte :: rest => some (byte, rest)

/-- A number of at most the given number of groups, of which the last possible one is at most `top`.  Groups of
zeros at the end are allowed. -/
def takeVarint (top : Nat) : Nat → Decoder Nat
  | 0 => fun _ => none
  | groups + 1 => do
    let byte ← takeByte
    if byte.toNat < 128 then
      if groups = 0 ∧ top < byte.toNat then failure else return byte.toNat
    else
      let high ← takeVarint top groups
      return byte.toNat - 128 + 128 * high

theorem run_takeVarint_cons (top groups : Nat) (byte : UInt8) (rest : List UInt8) :
    (takeVarint top (groups + 1)).run (byte :: rest) =
      if byte.toNat < 128 then
        if groups = 0 ∧ top < byte.toNat then none else some (byte.toNat, rest)
      else ((takeVarint top groups).run rest).map fun (high, left) => (byte.toNat - 128 + 128 * high, left) := by
  rw [takeVarint, StateT.run_bind]
  change (if byte.toNat < 128 then _ else _ : Decoder Nat).run rest = _
  split
  · split <;> rfl
  · rw [StateT.run_bind]
    cases (takeVarint top groups).run rest <;> rfl

/-- How many numbers fit into a last group of at most `top` and the given number of groups before it. -/
def varintBound (top : Nat) : Nat → Nat
  | 0 => top + 1
  | groups + 1 => 128 * varintBound top groups

/-- The integers in the order 0, -1, 1, -2, 2, and so on. -/
def zigzag : Int → Nat
  | .ofNat n => 2 * n
  | .negSucc n => 2 * n + 1

def unzigzag (n : Nat) : Int := if n % 2 = 0 then .ofNat (n / 2) else .negSucc (n / 2)

@[simp] theorem unzigzag_zigzag (i : Int) : unzigzag (zigzag i) = i := by
  cases i with
  | ofNat n => simp [zigzag, unzigzag]
  | negSucc n =>
    have h₁ : (2 * n + 1) % 2 = 1 := by omega
    have h₂ : (2 * n + 1) / 2 = n := by omega
    simp [zigzag, unzigzag, h₁, h₂]

@[simp] theorem zigzag_unzigzag (n : Nat) : zigzag (unzigzag n) = n := by
  unfold unzigzag
  split <;> simp only [zigzag] <;> omega

/-- Numbers of 32 bits take at most five groups, and the fifth has four bits. -/
def takeUInt32 : Decoder UInt32 := UInt32.ofNat <$> takeVarint 0x0f 5

/-- Numbers of 64 bits take at most ten groups, and the tenth has one bit. -/
def takeUInt64 : Decoder UInt64 := UInt64.ofNat <$> takeVarint 0x01 10

def encodeInt32 (value : Int32) : List UInt8 := varint (zigzag value.toInt)

def takeInt32 : Decoder Int32 := (fun n => Int32.ofInt (unzigzag n)) <$> takeVarint 0x0f 5

/-- The given number of values, one after the other. -/
def takeMany {α : Type} (take : Decoder α) : Nat → Decoder (List α)
  | 0 => return []
  | count + 1 => return (← take) :: (← takeMany take count)

/-- A list as the number of its values and then the values. -/
def encodeList {α : Type} (encode : α → List UInt8) (values : List α) : List UInt8 :=
  varint values.length ++ values.flatMap encode

def takeList {α : Type} (take : Decoder α) : Decoder (List α) := do
  takeMany take (← takeUInt64).toNat

end RegisterMachine.Wire
