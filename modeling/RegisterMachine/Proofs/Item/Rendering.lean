import RegisterMachine.Proofs.Item.Reading

/-!
# Renderings

The texts that say a list of items: each item in one of its spellings, with gaps between the words.  Reading such a
text gives the items back (`Chunk.ofSource_of_rendering`).  What a word says depends on the word in front of it, so
names may spell directives, mnemonics or hex digits.
-/

namespace RegisterMachine

/-- The words that say an item. -/
inductive Item.Spelling : Item → List (List Char) → Prop
  | byte (value : UInt8) (zeros : Nat) : Spelling (.byte value) [numeral zeros value.toNat]
  | opcode (op : Opcode) {word : List Char} (hword : Cased op.mnemonic.toList word) : Spelling (.opcode op) [word]
  | word (value : Word) {keyword : List Char} (hkeyword : Cased Directive.int.keyword.toList keyword) :
      Spelling (.word value) [keyword, signedNumeral value.toInt]
  | bytes {values : List UInt8} (hne : values ≠ []) {keyword digits : List Char}
      (hkeyword : Cased Directive.hex.keyword.toList keyword) (hdigits : Cased (hexDigits values) digits) :
      Spelling (.bytes values) [keyword, digits]
  | label {name : String} (hname : IsName name.toList) {keyword : List Char}
      (hkeyword : Cased Directive.label.keyword.toList keyword) : Spelling (.label name) [keyword, name.toList]
  | reference {name : String} (hname : IsName name.toList) {keyword : List Char}
      (hkeyword : Cased Directive.int.keyword.toList keyword) : Spelling (.reference name) [keyword, name.toList]

/-- The words that say the items one after the other. -/
inductive Item.Spellings : List Item → List (List Char) → Prop
  | nil : Spellings [] []
  | cons {item : Item} {items : List Item} {front back : List (List Char)} (hitem : item.Spelling front)
      (hitems : Spellings items back) : Spellings (item :: items) (front ++ back)

theorem Item.Spellings.append {items others : List Item} {front back : List (List Char)} (h : Spellings items front)
    (hothers : Spellings others back) : Spellings (items ++ others) (front ++ back) := by
  induction h with
  | nil => exact hothers
  | cons hitem hitems ih =>
    rw [List.cons_append, List.append_assoc]
    exact .cons hitem ih

/-- A text that says the items. -/
def Rendering (items : List Item) (text : List Char) : Prop :=
  ∃ words, Item.Spellings items words ∧ Spaced words text

/-! ### Where words start -/

private theorem not_startsGap_of_isName {word : List Char} (h : IsName word) (rest : List Char) :
    ¬StartsGap (word ++ rest) := by
  cases word with
  | nil => exact h.elim
  | cons c cs => exact not_startsGap_of_isNameRest (isNameRest_of_isNameStart h.1) _

private theorem not_startsGap_of_forall {word : List Char} (hne : word ≠ []) (h : ∀ c ∈ word, isNameRest c = true)
    (rest : List Char) : ¬StartsGap (word ++ rest) := by
  cases word with
  | nil => exact absurd rfl hne
  | cons c cs => exact not_startsGap_of_isNameRest (h c List.mem_cons_self) _

private theorem not_startsGap_of_numeral (zeros n : Nat) (rest : List Char) : ¬StartsGap (numeral zeros n ++ rest) :=
  not_startsGap_of_forall (numeral_ne_nil zeros n)
    (fun _ hc => isNameRest_of_isDigit (isDigit_of_mem_numeral hc)) rest

private theorem not_startsGap_of_signedNumeral (n : Int) (rest : List Char) :
    ¬StartsGap (signedNumeral n ++ rest) := by
  unfold signedNumeral
  by_cases hneg : n < 0
  · rw [if_pos hneg]
    rintro (hblank | hmarker | hmarker)
    · exact absurd hblank (by decide)
    · exact absurd hmarker (by decide)
    · exact absurd hmarker (by decide)
  · rw [if_neg hneg]
    exact not_startsGap_of_numeral _ _ _

/-! ### Reading one item -/

namespace SourceItem

variable {cursor : Cursor} {item : Item}

/-- A word that says an item alone. -/
private theorem read_of_word {word : List Char} {words : List (List Char)} {token : Token}
    (hstart : ∀ rest, ¬StartsGap (word ++ rest))
    (htoken : ∀ rest, StartsGap rest → Token.lexeme .plain (word ++ rest) = token)
    (htext : token.text = String.ofList word) (hend : token ≠ .endOfInput) (hdirective : token.directive? = none)
    (hitem : Item.ofToken token = .ok item) (h : Spaced (word :: words) cursor.rest) :
    ∃ line behind, read cursor = .ok (some (⟨item, line⟩, behind)) ∧ Following words behind.rest := by
  generalize hcursor : cursor.rest = text at h
  obtain _ | ⟨hgap, hfollowing⟩ := h
  obtain ⟨hfirst, hbehind⟩ :=
    Cursor.next_of_word .plain hcursor hgap (hstart _) (htoken _ hfollowing.startsGap) htext
  have hread := read_of_token (Prod.ext hfirst rfl) hend hdirective
  rw [hitem] at hread
  refine ⟨_, _, hread, ?_⟩
  rw [hbehind]
  exact hfollowing

/-- The two words of a directive are read one after the other, the second one by the mode of the directive. -/
private theorem read_of_words {directive : Directive} {keyword word : List Char} {words : List (List Char)}
    {token : Token} (hkeyword : Cased directive.keyword.toList keyword)
    (hstart : ∀ rest, ¬StartsGap (word ++ rest))
    (htoken : ∀ rest, StartsGap rest → Token.lexeme directive.mode (word ++ rest) = token)
    (htext : token.text = String.ofList word) (hitem : Item.ofOperand directive token = .ok item)
    (h : Spaced (keyword :: word :: words) cursor.rest) :
    ∃ line behind, read cursor = .ok (some (⟨item, line⟩, behind)) ∧ Following words behind.rest := by
  generalize hcursor : cursor.rest = text at h
  obtain _ | ⟨hgap, hfollowing⟩ := h
  have hname := Directive.isName_of_cased hkeyword
  obtain ⟨hfirst, hmiddle⟩ := Cursor.next_of_word .plain hcursor hgap (not_startsGap_of_isName hname _)
    (Token.lexeme_of_isName (by decide) hname hfollowing.startsGap) rfl
  -- From here on the directive decides what the reader is ready for.
  obtain _ | ⟨hgap', -, hrest⟩ := hfollowing
  obtain ⟨hsecond, hlast⟩ := Cursor.next_of_word directive.mode hmiddle hgap' (hstart _)
    (htoken _ hrest.startsGap) htext
  have hdirective : (Token.identifier (String.ofList keyword)).directive? = some directive := by
    rw [Token.directive?, Directive.ofWord?_of_cased hkeyword, Directive.ofWord?_keyword]
  have hend : token ≠ .endOfInput := by
    rintro rfl
    cases directive <;> cases hitem
  have hread := read_of_directive (Prod.ext hfirst rfl) (fun h => nomatch h) hdirective (Prod.ext hsecond rfl) hend
  rw [hitem] at hread
  refine ⟨_, _, hread, ?_⟩
  rw [hlast]
  exact hrest

/-- Every spelling of an item reads as the item, and reading stops behind it. -/
theorem read_of_spelling {front back : List (List Char)} (hitem : item.Spelling front)
    (h : Spaced (front ++ back) cursor.rest) :
    ∃ line behind, read cursor = .ok (some (⟨item, line⟩, behind)) ∧ Following back behind.rest := by
  cases hitem with
  | byte value zeros =>
    refine read_of_word (not_startsGap_of_numeral _ _)
      (fun rest hrest => Token.lexeme_of_numeral zeros value.toNat hrest) rfl (fun h => nomatch h) rfl ?_ h
    rw [Item.ofToken, Literal.byte_numeral]
    rfl
  | @opcode op word hword =>
    have hname := Opcode.isName_of_cased hword
    have hdirective : (Token.identifier (String.ofList word)).directive? = none := by
      rw [Token.directive?, Directive.ofWord?_of_cased hword, Opcode.ofWord?_mnemonic]
    refine read_of_word (not_startsGap_of_isName hname)
      (fun rest hrest => Token.lexeme_of_isName (by decide) hname hrest) rfl (fun h => nomatch h) hdirective ?_ h
    rw [Item.ofToken, Literal.mnemonic, Opcode.ofMnemonic?_of_cased hword, Opcode.ofMnemonic?_mnemonic]
    rfl
  | word value hkeyword =>
    refine read_of_words hkeyword (not_startsGap_of_signedNumeral _)
      (fun rest hrest => Token.lexeme_of_signedNumeral value.toInt hrest) rfl ?_ h
    rw [Item.ofOperand, Literal.int_signedNumeral]
    rfl
  | @bytes values hne keyword digits hkeyword hdigits =>
    have hhex := isHexDigit_of_mem_hexDigits hdigits
    have hdigitsNe : digits ≠ [] := by
      rw [← List.length_pos_iff, hdigits.length_eq, length_hexDigits]
      have hlength := List.length_pos_iff.2 hne
      omega
    refine read_of_words hkeyword
      (not_startsGap_of_forall hdigitsNe fun c hc => isNameRest_of_isHexDigit (hhex c hc))
      (fun rest hrest => Token.lexeme_hex_of_isHexDigit
        ⟨hdigitsNe, hhex, hrest.stops fun c => isNameRest_of_isHexDigit⟩) rfl ?_ h
    rw [Item.ofOperand, Literal.hex_hexDigits hdigits]
    rfl
  | @label name hname keyword hkeyword =>
    refine read_of_words hkeyword (not_startsGap_of_isName hname)
      (fun rest hrest => Token.lexeme_of_isName (by decide) hname hrest) rfl ?_ h
    rw [Item.ofOperand, String.ofList_toList]
  | @reference name hname keyword hkeyword =>
    refine read_of_words hkeyword (not_startsGap_of_isName hname)
      (fun rest hrest => Token.lexeme_of_isName (by decide) hname hrest) rfl ?_ h
    rw [Item.ofOperand, String.ofList_toList]

end SourceItem

/-! ### Reading all items -/

namespace Chunk

/-- Reading goes from each item to the next and ends with the text. -/
theorem ofCursor_of_spellings {items : List Item} {words : List (List Char)} {cursor : Cursor}
    (hitems : Item.Spellings items words) (h : Spaced words cursor.rest) :
    ((ofCursor cursor).items.map fun entry => entry.item) = items ∧ (ofCursor cursor).failure = none := by
  induction hitems generalizing cursor with
  | nil =>
    have hlast : LastGap cursor.rest := by
      generalize cursor.rest = text at h
      cases h with
      | last h => exact h
    have hread : SourceItem.read cursor = .ok none := by
      unfold SourceItem.read
      exact if_pos (Cursor.next_of_lastGap hlast)
    rw [ofCursor_eq, hread]
    exact ⟨rfl, rfl⟩
  | cons hitem hitems ih =>
    obtain ⟨line, behind, hread, hfollowing⟩ := SourceItem.read_of_spelling hitem h
    obtain ⟨hothers, hfailure⟩ := ih hfollowing.spaced
    rw [ofCursor_eq, hread]
    dsimp only
    rw [List.map_cons, hothers, hfailure]
    exact ⟨rfl, rfl⟩

theorem ofSource_of_rendering {items : List Item} {source : String} (h : Rendering items source.toList) :
    ((ofSource source).items.map fun entry => entry.item) = items ∧ (ofSource source).failure = none := by
  obtain ⟨words, hitems, hspaced⟩ := h
  exact ofCursor_of_spellings hitems hspaced

end Chunk

end RegisterMachine
