import Mathlib.Data.Nat.Digits.Defs
import RegisterMachine.Proofs.Assembly.Rebasing
import RegisterMachine.Proofs.Machine.Changes

/-!
# Operands

The bytes of a word can be derived without two's complement: those of a negative integer are 255 less the bytes of the
number one below its magnitude (`Word.map_toNat_toBytes`).  Programs hold their words in these bytes, be they
literals or the addresses that references are linked to, and a machine that fetches an operand where a word stands in
its program fetches the same integer again (`fetchesWord_of_emitted`).
-/

namespace RegisterMachine

/-! ### Bytes of integers -/

namespace Word

/-- The byte of a number at a place.  The least significant byte is at the place 0. -/
def byteAt (n place : Nat) : Nat := n / 256 ^ place % 256

/-- The byte of an integer at a place, derived from magnitudes: an integer that is not negative has its own bytes, and
a negative one has 255 less the bytes of the number one below its magnitude. -/
def derivedByte (v : Int) (place : Nat) : Nat :=
  if 0 ≤ v then byteAt v.toNat place else 255 - byteAt (v.natAbs - 1) place

private theorem map_toNat_toBytes_eq_byteAt (w : Word) :
    (toBytes w).map UInt8.toNat = (List.range 4).map (byteAt w.toUInt32.toNat) := by
  show _ = [byteAt _ 0, byteAt _ 1, byteAt _ 2, byteAt _ 3]
  simp only [toBytes, List.map_cons, List.map_nil, Nat.toUInt8_eq, UInt8.toNat_ofNat']
  simp [byteAt]

/-- What is missing to the largest number of 32 bits is missing byte by byte. -/
private theorem byteAt_sub {n place : Nat} (hn : n < 4294967296) (hplace : place < 4) :
    byteAt (4294967295 - n) place = 255 - byteAt n place := by
  unfold byteAt
  obtain rfl | rfl | rfl | rfl : place = 0 ∨ place = 1 ∨ place = 2 ∨ place = 3 := by omega
  all_goals simp only [Nat.reducePow]; omega

private theorem toInt_eq (w : Word) : w.toInt =
    if w.toUInt32.toNat < 2147483648 then (w.toUInt32.toNat : Int) else w.toUInt32.toNat - 4294967296 := by
  rw [← Int32.toInt_toBitVec, BitVec.toInt_eq_toNat_cond]
  show (if 2 * w.toUInt32.toNat < 4294967296 then (w.toUInt32.toNat : Int) else w.toUInt32.toNat - 4294967296) = _
  split <;> split <;> omega

/-- The bytes of a word are those that are derived for its integer. -/
theorem map_toNat_toBytes (w : Word) :
    (toBytes w).map UInt8.toNat = (List.range 4).map (derivedByte w.toInt) := by
  have hlt := w.toUInt32.toNat_lt
  have hvalue := toInt_eq w
  rw [map_toNat_toBytes_eq_byteAt]
  apply List.map_congr_left
  intro place hplace
  rw [List.mem_range] at hplace
  unfold derivedByte
  split at hvalue
  · have hnumber : w.toInt.toNat = w.toUInt32.toNat := by omega
    rw [if_pos (by omega), hnumber]
  · -- The magnitude is what the number of the word is short of 2 ^ 32, and it is never zero.
    have hnumber : w.toUInt32.toNat = 4294967295 - (w.toInt.natAbs - 1) := by omega
    rw [if_neg (by omega), hnumber]
    exact byteAt_sub (by omega) hplace

end Word

/-! ### Fetching words -/

/-- Standing at the address, the machine fetches the word for an operand of any instruction, and stands behind it
then. -/
def Machine.FetchesWord (machine : Machine) (address : Int) (w : Word) : Prop :=
  ∀ op opcodeAddress, (Execution.fetchWord op opcodeAddress).run { machine with instructionPointer := address } =
    .ok w { machine with instructionPointer := address + 4 }

namespace Machine.Matches

variable {program : Array UInt8} {layout : Layout} {machine : Machine} {store : Store} {rest : List UInt8}

/-- Where the program holds the bytes of a word, the machine fetches the word. -/
theorem fetchesWord (h : machine.Matches program layout rest store) {offset : Nat} {w : Word}
    (hbytes : (program.toList.drop offset).take 4 = w.toBytes) :
    machine.FetchesWord (layout.instructionsStart + offset) w := by
  intro op opcodeAddress
  have hlength := congrArg List.length hbytes
  rw [List.length_take, List.length_drop, Array.length_toList, Word.length_toBytes] at hlength
  have hstands := h.standing (List.drop_suffix offset program.toList)
  have hpointer := hstands.instructionPointer_of_drop (by omega)
  dsimp only at hpointer
  rw [hpointer, ← List.take_append_drop 4 (program.toList.drop offset), hbytes, List.drop_drop] at hstands
  have hfetch := Execution.fetches_fetchWord op opcodeAddress hstands
  rw [Word.ofFront?_toBytes] at hfetch
  obtain ⟨last, hrun, hlast⟩ := hfetch
  have hbehind := hlast.instructionPointer_of_drop (by omega)
  rw [Int.natCast_add, ← Int.add_assoc] at hbehind
  rw [hrun, hstands.eq_of_pushed_eq hlast rfl, hlast.registers_eq, ← h.registers_eq, hbehind]
  rfl

end Machine.Matches

/-! ### Words in programs -/

/-- A program that an assembly emits is the image of all its items, whose references stand for the addresses of its
labels. -/
private theorem image_of_answer_emit {base : Int} {requests : List Request} {program : Array UInt8}
    (h : ((Assembly.empty base).afterRequests requests).answer .emit = .ok (.program program)) :
    program.toList = Image.bytes base (Chunk.joined (Request.sources requests)) ∧
    ∀ name ∈ Image.references (Chunk.joined (Request.sources requests)), ∃ offset,
      ((Assembly.empty base).afterRequests requests).label? name = some offset ∧
        Image.address base (Chunk.joined (Request.sources requests)) name = base + offset ∧
          -2147483648 ≤ base + offset ∧ base + offset ≤ 2147483647 := by
  obtain ⟨hfollows, hbase⟩ := (Assembly.follows_empty base).afterRequests requests
  have hanswer := (hfollows.perform .emit).1
  rw [h, hbase] at hanswer
  have hrunning := History.running_of_answer_emit hanswer.symm
  obtain ⟨rfl, hlinked⟩ := History.eq_of_answer_emit hanswer.symm
  refine ⟨rfl, fun name hname => ?_⟩
  obtain ⟨offset, hoffset, hbounds⟩ := hlinked name hname
  refine ⟨offset, ?_, ?_, hbounds⟩
  · rw [hfollows.label?_eq, (History.plain_items_foldl_load hrunning).2]
    exact hoffset
  · rw [Image.address, hoffset, Option.getD_some]

/-- A machine that runs the image of items fetches the word that an item is written as, whatever it executed before. -/
private theorem fetchesWord_of_image {base : Int} {items front back : List Item} {item : Item} {w : Word}
    {program : Array UInt8} {config : Config} {machine : Machine} (hbuild : Machine.build program config = .ok machine)
    (hprogram : program.toList = Image.bytes base items) (hsplit : items = front ++ item :: back)
    (hitem : item.image (Image.address base items) = w.toBytes) (calls : List Call) :
    (machine.afterCalls calls).FetchesWord (machine.instructionBase + Image.size front) w := by
  obtain ⟨rest, store, hnow, -, -⟩ :=
    (Machine.matches_of_build hbuild).exists_of_steps (Machine.steps_afterCalls machine calls)
  have hsize : item.size = 4 := by rw [← Item.length_image (Image.address base items), hitem, Word.length_toBytes]
  have hbytes := Image.take_drop_flatMap_image (Image.address base items) front back item
  rw [← hsplit, ← Image.bytes, ← hprogram, hsize, hitem] at hbytes
  exact hnow.fetchesWord hbytes

/-- A word is written in the bytes that are derived for its integer, and reading is inverse to writing: the four bytes
of every word are read as that word, and the word that any four bytes are read as is written in these bytes.  So
whatever the base and however the chunks were loaded and linked, a machine that runs the emitted program and stands
where an integer literal was written fetches the integer, and where a reference was written, the address of its label.
It does not matter what the machine executed before. -/
theorem fetchesWord_of_emitted :
    (∀ w : Word, w.toBytes.map UInt8.toNat = (List.range 4).map (Word.derivedByte w.toInt)) ∧
    (∀ w : Word, ∃ b₀ b₁ b₂ b₃, w.toBytes = [b₀, b₁, b₂, b₃] ∧ Word.ofBytes b₀ b₁ b₂ b₃ = w) ∧
    (∀ b₀ b₁ b₂ b₃, (Word.ofBytes b₀ b₁ b₂ b₃).toBytes = [b₀, b₁, b₂, b₃]) ∧
    ∀ (base : Int32) (requests : List Request) (program : Array UInt8) (config : Config) (machine : Machine),
      ((Assembly.empty base.toInt).afterRequests requests).answer .emit = .ok (.program program) →
      Machine.build program config = .ok machine →
      (∀ front w back calls, Chunk.joined (Request.sources requests) = front ++ .word w :: back →
        (machine.afterCalls calls).FetchesWord (machine.instructionBase + Image.size front) w) ∧
      ∀ front name back calls, Chunk.joined (Request.sources requests) = front ++ .reference name :: back →
        ∃ offset w, ((Assembly.empty base.toInt).afterRequests requests).label? name = some offset ∧
          w.toInt = base.toInt + offset ∧
            (machine.afterCalls calls).FetchesWord (machine.instructionBase + Image.size front) w := by
  refine ⟨Word.map_toNat_toBytes, fun w => ⟨_, _, _, _, rfl, Word.ofBytes_of_toBytes_eq rfl⟩, Word.toBytes_ofBytes, ?_⟩
  intro base requests program config machine hemit hbuild
  obtain ⟨hprogram, hlinked⟩ := image_of_answer_emit hemit
  constructor
  · intro front w back calls hsplit
    exact fetchesWord_of_image hbuild hprogram hsplit rfl calls
  · intro front name back calls hsplit
    have hname : name ∈ Image.references (Chunk.joined (Request.sources requests)) := by
      rw [hsplit, Image.references_append, Image.references_cons]
      simp [Item.reference?]
    obtain ⟨offset, hlabel, haddress, hlow, hhigh⟩ := hlinked name hname
    refine ⟨offset, .ofInt (base.toInt + offset), hlabel, Int32.toInt_ofInt_of_le (by omega) (by omega), ?_⟩
    refine fetchesWord_of_image hbuild hprogram hsplit ?_ calls
    rw [← haddress, Item.image]

/-- The smallest integer, and an address that is hardly larger: the base is the smallest integer too.  The machine
fetches the first before it has executed anything, and the second when it has run to its end. -/
theorem fetchesWord_of_emitted_smallest :
    let requests : List Request :=
      [.load "setreg 0 int -2147483648 setreg 1 int end", .resolve, .load "push 0 label end"]
    let assembly := (Assembly.empty (-2147483648 : Int32).toInt).afterRequests requests
    (Word.toBytes (-2147483648)).map UInt8.toNat = [0, 0, 0, 128] ∧
    (List.range 4).map (Word.derivedByte (-2147483648)) = [0, 0, 0, 128] ∧
    ∃ machine, assembly.answer .emit = .ok (.program #[1, 0, 0, 0, 0, 128, 1, 1, 14, 0, 0, 128, 8, 0]) ∧
      Machine.build #[1, 0, 0, 0, 0, 128, 1, 1, 14, 0, 0, 128, 8, 0] {} = .ok machine ∧
      machine.FetchesWord 1026 (-2147483648) ∧ (machine.afterCalls [.run]).isHalted = true ∧
      ∃ w : Word, w.toInt = -2147483634 ∧ (machine.afterCalls [.run]).FetchesWord 1032 w := by
  intro requests assembly
  obtain ⟨hbytes, -, -, hfetches⟩ := fetchesWord_of_emitted
  have hemit : assembly.answer .emit = .ok (.program #[1, 0, 0, 0, 0, 128, 1, 1, 14, 0, 0, 128, 8, 0]) := by
    decide +kernel
  have hitems : Chunk.joined (Request.sources requests) =
      [.opcode .setReg, .byte 0, .word (-2147483648), .opcode .setReg, .byte 1, .reference "end", .opcode .push,
        .byte 0, .label "end"] := by
    decide +kernel
  obtain ⟨machine, hbuild⟩ :
      ∃ machine, Machine.build #[1, 0, 0, 0, 0, 128, 1, 1, 14, 0, 0, 128, 8, 0] {} = .ok machine := ⟨_, rfl⟩
  have hbase : machine.instructionBase = 1024 := by
    cases hbuild
    rfl
  have hderived : (List.range 4).map (Word.derivedByte (-2147483648)) = [0, 0, 0, 128] := by decide
  obtain ⟨hliterals, hreferences⟩ := hfetches _ _ _ _ _ hemit hbuild
  have hliteral := hliterals [.opcode .setReg, .byte 0] (-2147483648) _ [] hitems
  obtain ⟨offset, w, hlabel, hw, hreference⟩ :=
    hreferences [.opcode .setReg, .byte 0, .word (-2147483648), .opcode .setReg, .byte 1] "end" _ [.run] hitems
  rw [hbase] at hliteral hreference
  have hend : assembly.label? "end" = some 14 := by decide +kernel
  cases hlabel.symm.trans hend
  have hhalted : (machine.afterCalls [.run]).isHalted = true := by
    cases hbuild
    decide +kernel
  exact ⟨(hbytes _).trans hderived, hderived, machine, hemit, hbuild, hliteral, hhalted, w, hw, hreference⟩

end RegisterMachine
