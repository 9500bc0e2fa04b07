import RegisterMachine.Proofs.Assembly.Image
import RegisterMachine.Proofs.Item.Reading
import RegisterMachine.Proofs.Literal.Decimal
import RegisterMachine.Proofs.Literal.Hex

/-!
# Meaning

The items that tokens stand for, told without the reader: each phrase means one item (`Means`), with the value of a
literal by the places of its digits, and phrases one after the other mean their items in order (`MeansAll`).  The
reader goes through tokens to their end exactly if they mean something, and what it reads then is what they mean
(`Chunk.ofTokens_eq_iff`).  So no tokens mean two things (`MeansAll.unique`), and the sentences of the grammar are what
means items with new and distinct labels (`sentence_iff_meansAll`).
-/

namespace RegisterMachine

/-- The tokens of a phrase, the item that they stand for, and the line of the last token. -/
inductive Means : List PlacedToken → SourceItem → Prop
  | byte {text : String} {value : UInt8} {k : Nat} (hvalue : Numeral text.toList value.toNat) :
      Means [⟨.byteLiteral text, k⟩] ⟨.byte value, k + 1⟩
  | opcode {word : String} {op : Opcode} {k : Nat} (hword : op.WrittenAs word) :
      Means [⟨.identifier word, k⟩] ⟨.opcode op, k + 1⟩
  | label {word name : String} {j k : Nat} (hword : Directive.label.WrittenAs word) :
      Means [⟨.identifier word, j⟩, ⟨.identifier name, k⟩] ⟨.label name, k + 1⟩
  | word {word text : String} {value : Word} {j k : Nat} (hword : Directive.int.WrittenAs word)
      (hvalue : SignedNumeral text.toList value.toInt) :
      Means [⟨.identifier word, j⟩, ⟨.intLiteral text, k⟩] ⟨.word value, k + 1⟩
  | reference {word name : String} {j k : Nat} (hword : Directive.int.WrittenAs word) :
      Means [⟨.identifier word, j⟩, ⟨.identifier name, k⟩] ⟨.reference name, k + 1⟩
  | bytes {word digits : String} {values : List UInt8} {j k : Nat} (hword : Directive.hex.WrittenAs word)
      (hvalues : hexDigits values = digits.toList.map Char.toLower) :
      Means [⟨.identifier word, j⟩, ⟨.hexSequence digits, k⟩] ⟨.bytes values, k + 1⟩

/-- Phrases one after the other, and the items that they stand for. -/
inductive MeansAll : List PlacedToken → List SourceItem → Prop
  | nil : MeansAll [] []
  | cons {front back : List PlacedToken} {item : SourceItem} {items : List SourceItem} (hfront : Means front item)
      (hback : MeansAll back items) : MeansAll (front ++ back) (item :: items)

variable {tokens : List PlacedToken} {item : SourceItem} {items : List SourceItem}

/-! ### Phrases -/

theorem Means.phrase (h : Means tokens item) : Phrase tokens item.item.definition? := by
  cases h with
  | byte hvalue => exact .byte (Literal.isByte_iff.2 ⟨_, hvalue, Nat.le_of_lt_succ (UInt8.toNat_lt _)⟩)
  | opcode hword => exact .opcode hword
  | label hword => exact .label hword
  | @word _ _ value _ _ hword hvalue =>
    exact .word hword (Literal.isWord_iff.2 ⟨_, hvalue, value.le_toInt, Int.le_of_lt_add_one value.toInt_lt⟩)
  | reference hword => exact .reference hword
  | bytes hword hvalues =>
    have hlength := Literal.length_of_hexDigits hvalues
    exact .bytes hword (by omega)

/-- A phrase of tokens that look like what they are means an item. -/
theorem Phrase.exists_means {label? : Option String} (h : Phrase tokens label?)
    (hshape : ∀ placed ∈ tokens, placed.token.HasShape) :
    ∃ item, Means tokens item ∧ item.item.definition? = label? := by
  cases h with
  | byte htext =>
    obtain ⟨value, hvalue⟩ := Literal.exists_byte_of_isByte htext
    exact ⟨_, .byte (Literal.byte_eq_ok_iff.1 hvalue), rfl⟩
  | opcode hword => exact ⟨_, .opcode hword, rfl⟩
  | label hword => exact ⟨_, .label hword, rfl⟩
  | word hword htext =>
    obtain ⟨value, hvalue⟩ := Literal.exists_int_of_isWord htext
    exact ⟨_, .word hword (Literal.int_eq_ok_iff.1 hvalue), rfl⟩
  | reference hword => exact ⟨_, .reference hword, rfl⟩
  | @bytes word digits j k hword heven =>
    have hdigits : (Token.hexSequence digits).HasShape := hshape ⟨.hexSequence digits, k⟩ (by simp)
    obtain ⟨values, hvalues⟩ := Literal.exists_hex_of_even hdigits.2 heven
    exact ⟨_, .bytes hword (Literal.hex_eq_ok_iff.1 hvalues), rfl⟩

/-! ### Reading them -/

namespace Item

/-- A token that reads as an item on its own means the item. -/
theorem means_of_ofToken {placed : PlacedToken} {item : Item} (h : ofToken placed.token = .ok item) :
    Means [placed] ⟨item, placed.line⟩ := by
  obtain ⟨token, k⟩ := placed
  cases token with
  | byteLiteral text =>
    obtain ⟨value, hvalue, rfl⟩ := encode_eq_ok_iff.1 h
    exact .byte (Literal.byte_eq_ok_iff.1 hvalue)
  | identifier word =>
    obtain ⟨op, hop, rfl⟩ := encode_eq_ok_iff.1 h
    exact .opcode (Literal.mnemonic_eq_ok_iff.1 hop)
  | _ => cases h

/-- A directive and its operand mean the item that they read as. -/
theorem means_of_ofOperand {first operand : PlacedToken} {directive : Directive} {item : Item}
    (hdirective : first.token.directive? = some directive) (h : ofOperand directive operand.token = .ok item) :
    Means [first, operand] ⟨item, operand.line⟩ := by
  obtain ⟨token, j⟩ := first
  obtain ⟨other, k⟩ := operand
  obtain ⟨word, rfl, hword⟩ := Token.eq_identifier_of_directive? hdirective
  cases directive with
  | label =>
    cases other with
    | identifier name =>
      cases h
      exact .label hword
    | _ => cases h
  | int =>
    cases other with
    | intLiteral text =>
      obtain ⟨value, hvalue, rfl⟩ := encode_eq_ok_iff.1 h
      exact .word hword (Literal.int_eq_ok_iff.1 hvalue)
    | identifier name =>
      cases h
      exact .reference hword
    | _ => cases h
  | hex =>
    cases other with
    | hexSequence digits =>
      obtain ⟨values, hvalues, rfl⟩ := encode_eq_ok_iff.1 h
      exact .bytes hword (Literal.hex_eq_ok_iff.1 hvalues)
    | _ => cases h

end Item

/-- A phrase reads as the item that it means, whatever follows. -/
theorem Means.ofTokens_append (h : Means tokens item) (back : List PlacedToken) :
    Chunk.ofTokens (tokens ++ back) =
      ⟨item :: (Chunk.ofTokens back).items, (Chunk.ofTokens back).failure⟩ := by
  cases h with
  | byte hvalue =>
    rw [List.cons_append, Chunk.ofTokens_of_token rfl, Item.ofToken, Literal.byte_eq_ok_iff.2 hvalue]
    rfl
  | opcode hword =>
    rw [List.cons_append, Chunk.ofTokens_of_token hword.directive?_eq_none, Item.ofToken,
      Literal.mnemonic_eq_ok_iff.2 hword]
    rfl
  | label hword | reference hword =>
    rw [List.cons_append, List.cons_append, Chunk.ofTokens_of_directive hword.directive?_eq_some]
    rfl
  | word hword hvalue =>
    rw [List.cons_append, List.cons_append, Chunk.ofTokens_of_directive hword.directive?_eq_some, Item.ofOperand,
      Literal.int_eq_ok_iff.2 hvalue]
    rfl
  | bytes hword hvalues =>
    rw [List.cons_append, List.cons_append, Chunk.ofTokens_of_directive hword.directive?_eq_some, Item.ofOperand,
      Literal.hex_eq_ok_iff.2 hvalues]
    rfl

namespace MeansAll

variable {others : List PlacedToken} {more : List SourceItem}

theorem append (h : MeansAll tokens items) (hmore : MeansAll others more) :
    MeansAll (tokens ++ others) (items ++ more) := by
  induction h with
  | nil => exact hmore
  | cons hfront hback ih =>
    rw [List.append_assoc]
    exact .cons hfront ih

theorem ofTokens_eq (h : MeansAll tokens items) : Chunk.ofTokens tokens = ⟨items, none⟩ := by
  induction h with
  | nil => rfl
  | cons hfront hback ih => rw [hfront.ofTokens_append, ih]

end MeansAll

namespace Chunk

/-- Tokens that read as items to their end mean these items. -/
theorem meansAll_of_failure (h : (ofTokens tokens).failure = none) : MeansAll tokens (ofTokens tokens).items := by
  fun_induction ofTokens tokens with
  | case1 => exact .nil
  | case2 first tokens hdirective ih =>
    obtain ⟨⟨item, hitem⟩, htokens⟩ := exists_of_failure_cons h
    rw [hitem]
    exact .cons (Item.means_of_ofToken hitem) (ih htokens)
  | case3 first directive hdirective => cases h
  | case4 first directive hdirective operand tokens ih =>
    obtain ⟨⟨item, hitem⟩, htokens⟩ := exists_of_failure_cons h
    rw [hitem]
    exact .cons (Item.means_of_ofOperand hdirective hitem) (ih htokens)

/-- Reading tokens to their end gives the items that they mean, and succeeds exactly if there are such items. -/
theorem ofTokens_eq_iff : ofTokens tokens = ⟨items, none⟩ ↔ MeansAll tokens items := by
  refine ⟨fun h => ?_, MeansAll.ofTokens_eq⟩
  have hmeans := @meansAll_of_failure tokens (by rw [h])
  rwa [h] at hmeans

/-- The tokens of a source as the reader of its items asks for them, on the lines that are counted for them. -/
def tokensOf (source : String) : List PlacedToken := ((Cursor.start source).stream .plain).map PlacedToken.counted

/-- A source reads to its end exactly if its tokens mean items, and then it reads as these items. -/
theorem ofSource_eq_iff {source : String} : ofSource source = ⟨items, none⟩ ↔ MeansAll (tokensOf source) items := by
  rw [ofSource, ofCursor_eq_ofTokens_counted, ofTokens_eq_iff, tokensOf]

/-- A word behind a directive is its operand, even if it spells another directive. -/
example : MeansAll (tokensOf "label hex int -010\nHex 0aF0")
    [⟨.label "hex", 1⟩, ⟨.word (-10), 1⟩, ⟨.bytes [10, 240], 2⟩] :=
  ofSource_eq_iff.1 (by decide +kernel)

end Chunk

theorem MeansAll.unique {others : List SourceItem} (h : MeansAll tokens items) (hothers : MeansAll tokens others) :
    items = others := by
  have heq := h.ofTokens_eq.symm.trans hothers.ofTokens_eq
  exact congrArg Chunk.items heq

/-! ### Sentences -/

private theorem fresh_iff {defined : String → Prop} {label? : Option String} {names : List String} :
    ((label?.toList ++ names).Nodup ∧ ∀ name ∈ label?.toList ++ names, ¬defined name) ↔
      (∀ name, label? = some name → ¬defined name) ∧
        names.Nodup ∧ ∀ name ∈ names, ¬(defined name ∨ label? = some name) := by
  cases label? with
  | none => simp
  | some label =>
    simp only [Option.toList_some, List.singleton_append, List.nodup_cons, List.forall_mem_cons, Option.some.injEq,
      forall_eq', not_or]
    constructor
    · rintro ⟨⟨hnotMem, hnodup⟩, hlabel, hnames⟩
      exact ⟨hlabel, hnodup, fun name hname => ⟨hnames name hname, fun heq => hnotMem (heq ▸ hname)⟩⟩
    · rintro ⟨hlabel, hnodup, hnames⟩
      exact ⟨⟨fun hmem => (hnames label hmem).2 rfl, hnodup⟩, hlabel, fun name hname => (hnames name hname).1⟩

/-- A sentence is what means items whose labels are new and distinct. -/
theorem sentence_iff_meansAll {defined : String → Prop} (hshape : ∀ placed ∈ tokens, placed.token.HasShape) :
    Sentence defined tokens ↔ ∃ items, MeansAll tokens items ∧
      (Image.definitions (items.map fun entry => entry.item)).Nodup ∧
        ∀ name ∈ Image.definitions (items.map fun entry => entry.item), ¬defined name := by
  have hcons (item : SourceItem) (items : List SourceItem) :
      Image.definitions ((item :: items).map fun entry => entry.item) =
        item.item.definition?.toList ++ Image.definitions (items.map fun entry => entry.item) := by
    rw [List.map_cons, ← List.singleton_append, Image.definitions_append, Image.definitions_singleton]
  constructor
  · intro h
    induction h with
    | nil => exact ⟨[], .nil, List.nodup_nil, List.forall_mem_nil _⟩
    | cons hfront hfresh hback ih =>
      rw [List.forall_mem_append] at hshape
      obtain ⟨item, hmeans, hlabel⟩ := hfront.exists_means hshape.1
      obtain ⟨items, hitems, hdistinct⟩ := ih hshape.2
      refine ⟨item :: items, .cons hmeans hitems, ?_⟩
      rw [hcons, hlabel, fresh_iff]
      exact ⟨hfresh, hdistinct⟩
  · rintro ⟨items, hmeans, hdistinct⟩
    induction hmeans generalizing defined with
    | nil => exact .nil
    | cons hfront hback ih =>
      rw [List.forall_mem_append] at hshape
      rw [hcons, fresh_iff] at hdistinct
      exact .cons hfront.phrase hdistinct.1 (ih hshape.2 hdistinct.2)

end RegisterMachine
