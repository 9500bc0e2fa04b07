import RegisterMachine.Proofs.Item.Meaning

/-!
# Words

Items are made of literals and identifiers, and such a token is a word: in front of a gap its text is read as the same
token again, whatever followed it where it was read first (`Token.lexeme_text`).  So two texts with the same words say
the same items, whatever fills the gaps between them and even where there was no gap (`Chunk.ofSource_of_spaced`).
-/

namespace RegisterMachine

/-! ### Tokens that are words -/

namespace Token

/-- The tokens that items are made of. -/
def IsWord : Token → Prop
  | byteLiteral _ | identifier _ | intLiteral _ | hexSequence _ => True
  | punctuation _ | endOfInput => False

private theorem not_startsGap_minus (cs : List Char) : ¬StartsGap ('-' :: cs) := by
  rintro (hblank | hmarker | hmarker)
  · exact absurd hblank (by decide)
  · exact absurd hmarker (by decide)
  · exact absurd hmarker (by decide)

variable {mode : Mode} {cs rest : List Char}

/-- No gap starts with a word. -/
theorem not_startsGap_text (h : (lexeme mode cs).IsWord) :
    ¬StartsGap ((lexeme mode cs).text.toList ++ rest) := by
  revert h
  fun_cases lexeme mode cs with
  | case1 | case2 | case8 => exact False.elim
  | case3 c cs hmode hdigits =>
    intro _
    rw [text, String.toList_ofList]
    exact not_startsGap_minus _
  | case4 c cs hmode hhex =>
    intro _
    rw [text, String.toList_ofList]
    exact not_startsGap_of_isNameRest (isNameRest_of_isHexDigit hhex.2) _
  | case5 c cs hmode hhex hdigit digits | case6 c cs hmode hhex hdigit digits =>
    intro _
    rw [text, String.toList_ofList]
    exact not_startsGap_of_isNameRest (isNameRest_of_isDigit hdigit) _
  | case7 c cs hmode hhex hdigit hname =>
    intro _
    rw [text, String.toList_ofList]
    exact not_startsGap_of_isNameRest (isNameRest_of_isNameStart hname) _

/-- A word is read again where a gap follows it. -/
theorem lexeme_text (h : (lexeme mode cs).IsWord) (hrest : StartsGap rest) :
    lexeme mode ((lexeme mode cs).text.toList ++ rest) = lexeme mode cs := by
  revert h
  fun_cases lexeme mode cs with
  | case1 | case2 | case8 => exact False.elim
  | case3 c cs hmode hdigits =>
    intro _
    obtain ⟨d, ds, hrun⟩ := List.exists_cons_of_ne_nil hdigits
    rw [text, String.toList_ofList, hmode.1, List.cons_append, lexeme, if_pos ⟨rfl, rfl⟩,
      takeWhile_of_startsGap (fun c => isNameRest_of_isDigit) (fun c => of_mem_takeWhile) hrest, hrun]
  | case4 c cs hmode hhex =>
    intro _
    rw [text, String.toList_ofList, List.cons_append, lexeme, if_neg hmode, if_pos hhex,
      takeWhile_of_startsGap (fun c => isNameRest_of_isHexDigit) (fun c => of_mem_takeWhile) hrest]
  | case5 c cs hmode hhex hdigit digits hinteger =>
    intro _
    rw [text, String.toList_ofList, List.cons_append, lexeme, if_neg hmode, if_neg hhex, if_pos hdigit,
      takeWhile_of_startsGap (fun c => isNameRest_of_isDigit) (fun c => of_mem_takeWhile) hrest]
    exact if_pos hinteger
  | case6 c cs hmode hhex hdigit digits hinteger =>
    intro _
    rw [text, String.toList_ofList, List.cons_append, lexeme, if_neg hmode, if_neg hhex, if_pos hdigit,
      takeWhile_of_startsGap (fun c => isNameRest_of_isDigit) (fun c => of_mem_takeWhile) hrest]
    exact if_neg hinteger
  | case7 c cs hmode hhex hdigit hname =>
    intro _
    rw [text, String.toList_ofList, List.cons_append, lexeme, if_neg hmode, if_neg hhex, if_neg hdigit, if_pos hname,
      takeWhile_of_startsGap (fun c hc => hc) (fun c => of_mem_takeWhile) hrest]

end Token

/-! ### Texts of the same words -/

/-- The characters of a token, wherever it stands. -/
def PlacedToken.word (placed : PlacedToken) : List Char := placed.token.text.toList

namespace Cursor

/-- A text of the same words has the same tokens. -/
theorem map_token_stream_of_spaced {mode : Mode} {cursor other : Cursor}
    (hwords : ∀ placed ∈ cursor.stream mode, placed.token.IsWord)
    (h : Spaced ((cursor.stream mode).map PlacedToken.word) other.rest) :
    (other.stream mode).map PlacedToken.token = (cursor.stream mode).map PlacedToken.token := by
  induction mode, cursor using streamInduction generalizing other with
  | stop mode cursor hend =>
    rw [stream_of_endOfInput hend] at h ⊢
    generalize hrest : other.rest = text at h
    cases h with
    | last hlast => rw [stream_of_endOfInput (next_of_lastGap (hrest ▸ hlast))]
  | step mode cursor token behind hnext hne ih =>
    rw [stream_of_next hnext hne] at h hwords ⊢
    rw [List.forall_mem_cons] at hwords
    generalize hrest : other.rest = text at h
    cases h with
    | @word gap _ tail _ hgap hfollowing =>
      -- The word was read from the first text, so it is read again from the second one.
      have htoken : Token.lexeme mode cursor.skipGap.rest = token := congrArg Prod.fst hnext
      have hword : (Token.lexeme mode cursor.skipGap.rest).IsWord := htoken ▸ hwords.1
      have hstart : ¬StartsGap (token.text.toList ++ tail) := htoken ▸ Token.not_startsGap_text hword
      have hlexeme : Token.lexeme mode (token.text.toList ++ tail) = token :=
        htoken ▸ Token.lexeme_text hword hfollowing.startsGap
      obtain ⟨hfirst, hbehind⟩ := next_of_word mode hrest hgap hstart hlexeme String.ofList_toList.symm
      obtain ⟨next, hother⟩ : ∃ next, other.next mode = (token, next) := ⟨_, Prod.ext hfirst rfl⟩
      rw [hother] at hbehind
      dsimp only at hbehind
      have hmode : mode.behind ⟨token, next.newlines⟩ = mode.behind ⟨token, behind.newlines⟩ :=
        mode.behind_congr rfl
      have hothers := ih hwords.2 (hbehind ▸ hfollowing.spaced)
      rw [stream_of_next hother hne, List.map_cons, List.map_cons, hmode, hothers]

end Cursor

/-! ### Chunks of the same words -/

/-- Tokens that mean items are words. -/
theorem MeansAll.isWord {tokens : List PlacedToken} {items : List SourceItem} (h : MeansAll tokens items) :
    ∀ placed ∈ tokens, placed.token.IsWord := by
  induction h with
  | nil => exact List.forall_mem_nil _
  | @cons front _ _ _ hfront hback ih =>
    have hword : ∀ placed ∈ front, placed.token.IsWord := by
      cases hfront <;> simp [Token.IsWord]
    exact List.forall_mem_append.2 ⟨hword, ih⟩

namespace Chunk

/-- What tokens say does not depend on where they stand. -/
theorem ofTokens_congr {tokens others : List PlacedToken}
    (h : tokens.map PlacedToken.token = others.map PlacedToken.token) (hfailure : (ofTokens tokens).failure = none) :
    (ofTokens others).failure = none ∧
      ((ofTokens others).items.map fun entry => entry.item) = (ofTokens tokens).items.map fun entry => entry.item := by
  induction tokens using ofTokens.induct generalizing others with
  | case1 =>
    rw [List.map_nil, eq_comm, List.map_eq_nil_iff] at h
    rw [h]
    exact ⟨rfl, rfl⟩
  | case2 first tokens hdirective ih =>
    obtain ⟨other, others, rfl, htoken, hothers⟩ := List.map_eq_cons_iff.1 h.symm
    rw [ofTokens_of_token hdirective] at hfailure ⊢
    obtain ⟨⟨item, hitem⟩, htokens⟩ := exists_of_failure_cons hfailure
    obtain ⟨hnone, hitems⟩ := ih hothers.symm htokens
    rw [ofTokens_of_token (htoken ▸ hdirective), htoken, hitem]
    exact ⟨hnone, congrArg (item :: ·) hitems⟩
  | case3 first directive hdirective =>
    rw [ofTokens_of_missing hdirective] at hfailure
    cases hfailure
  | case4 first directive hdirective operand tokens ih =>
    obtain ⟨other, behind, rfl, htoken, hbehind⟩ := List.map_eq_cons_iff.1 h.symm
    obtain ⟨otherOperand, others, rfl, hoperand, hothers⟩ := List.map_eq_cons_iff.1 hbehind
    rw [ofTokens_of_directive hdirective] at hfailure ⊢
    obtain ⟨⟨item, hitem⟩, htokens⟩ := exists_of_failure_cons hfailure
    obtain ⟨hnone, hitems⟩ := ih hothers.symm htokens
    rw [ofTokens_of_directive (htoken ▸ hdirective), hoperand, hitem]
    exact ⟨hnone, congrArg (item :: ·) hitems⟩

private theorem map_token_counted (tokens : List PlacedToken) :
    (tokens.map PlacedToken.counted).map PlacedToken.token = tokens.map PlacedToken.token := by
  rw [List.map_map]
  rfl

/-- A text of the same words says the same items. -/
theorem ofSource_of_spaced {source other : String} (hfailure : (ofSource source).failure = none)
    (h : Spaced (((Cursor.start source).stream .plain).map PlacedToken.word) other.toList) :
    (ofSource other).failure = none ∧
      ((ofSource other).items.map fun entry => entry.item) = (ofSource source).items.map fun entry => entry.item := by
  have hread : ofSource source = ofTokens (((Cursor.start source).stream .plain).map PlacedToken.counted) :=
    ofCursor_eq_ofTokens_counted _
  have hother : ofSource other = ofTokens (((Cursor.start other).stream .plain).map PlacedToken.counted) :=
    ofCursor_eq_ofTokens_counted _
  rw [hread] at hfailure ⊢
  rw [hother]
  have hwords := (meansAll_of_failure hfailure).isWord
  rw [List.forall_mem_map] at hwords
  have htokens : ((Cursor.start other).stream .plain).map PlacedToken.token =
      ((Cursor.start source).stream .plain).map PlacedToken.token :=
    Cursor.map_token_stream_of_spaced hwords h
  apply ofTokens_congr ?_ hfailure
  rw [map_token_counted, map_token_counted, htokens]

end Chunk

end RegisterMachine
