import RegisterMachine.Proofs.Token.Coverage

/-!
# Modes

What a reader finds depends on what it is ready for in few places only.  A name is read as in plain text.  A number is
read as in plain text too, but for a minus sign with a digit behind it, and a hex sequence but for a hex digit, which
both start a run that plain text divides in another way (`Token.lexeme_integer_of_sign`,
`Token.lexeme_hex_of_isHexDigit`).
-/

namespace RegisterMachine

/-- A text that starts with a character of the class starts with a run. -/
theorem exists_run {p : Char → Bool} {c : Char} (hc : p c = true) (cs : List Char) :
    ∃ run rest, c :: cs = run ++ rest ∧ Run p run rest := by
  refine ⟨(c :: cs).takeWhile p, (c :: cs).dropWhile p, List.takeWhile_append_dropWhile.symm, ?_, ?_, ?_⟩
  · rw [List.takeWhile_cons_of_pos hc]
    exact List.cons_ne_nil _ _
  · intro d hd
    exact of_mem_takeWhile hd
  · intro d hd
    have hstop := List.head?_dropWhile_not p (c :: cs)
    rw [hd] at hstop
    simpa using hstop

/-- The text starts with a character that is no blank and starts no comment. -/
def Significant : List Char → Prop
  | [] => False
  | c :: cs => isBlank c = false ∧ c ≠ '#' ∧ ¬(c = '/' ∧ cs.head? = some '/')

theorem significant_iff {text : List Char} : Significant text ↔ text ≠ [] ∧ gapLength false text = 0 := by
  cases text with
  | nil => simp [Significant]
  | cons c cs =>
    rw [Significant, gapLength]
    by_cases hblank : isBlank c = true
    · simp [hblank]
    · by_cases hcomment : c = '#' ∨ (c = '/' ∧ cs.head? = some '/')
      · rw [if_neg hblank, if_pos hcomment]
        refine iff_of_false (fun hfirst => ?_) (fun hlength => Nat.succ_ne_zero _ hlength.2)
        rcases hcomment with hhash | hslash
        · exact hfirst.2.1 hhash
        · exact hfirst.2.2 hslash
      · rw [not_or] at hcomment
        simp [hblank, hcomment]

theorem isHexDigit_of_isDigit {c : Char} (h : c.isDigit = true) : isHexDigit c = true :=
  isHexDigit_iff.2 (Or.inl (isDigit_iff.1 h))

namespace Token

/-! ### The first token of a text -/

/-- The token where an integer is read. -/
def asInteger : Token → Token
  | byteLiteral text => intLiteral text
  | token => token

@[simp] theorem text_asInteger (token : Token) : token.asInteger.text = token.text := by
  cases token <;> rfl

theorem lexeme_name (cs : List Char) : lexeme .name cs = lexeme .plain cs := by
  cases cs with
  | nil => rfl
  | cons c cs => simp only [lexeme, reduceCtorEq, false_and, if_false]

/-- Where an integer is read, only a sign in front of a digit makes another token. -/
theorem lexeme_integer {cs : List Char} (h : ∀ d ds, cs = '-' :: d :: ds → d.isDigit = false) :
    lexeme .integer cs = (lexeme .plain cs).asInteger := by
  cases cs with
  | nil => rfl
  | cons c cs =>
    by_cases hminus : c = '-'
    · have hrun : cs.takeWhile Char.isDigit = [] := by
        cases cs with
        | nil => rfl
        | cons d ds => rw [List.takeWhile_cons_of_neg (by simp [h d ds (by rw [hminus])])]
      rw [hminus, lexeme, if_pos ⟨rfl, rfl⟩, hrun]
      rfl
    · simp only [lexeme, reduceCtorEq, hminus, false_and, and_false, if_true, if_false]
      split
      · rfl
      · split <;> rfl

/-- Where a hex sequence is read, only a hex digit makes another token. -/
theorem lexeme_hex {cs : List Char} (h : ∀ c, cs.head? = some c → isHexDigit c = false) :
    lexeme .hex cs = lexeme .plain cs := by
  cases cs with
  | nil => rfl
  | cons c cs =>
    have hc : isHexDigit c = false := h c rfl
    simp only [lexeme, reduceCtorEq, hc, Bool.false_eq_true, false_and, and_false, if_false]

/-- Characters of a smaller class make a shorter run. -/
private theorem takeWhile_isPrefix {p q : Char → Bool} (hpq : ∀ c, p c = true → q c = true) (cs : List Char) :
    cs.takeWhile p <+: cs.takeWhile q := by
  induction cs with
  | nil => exact List.prefix_rfl
  | cons c cs ih =>
    by_cases hc : p c = true
    · rw [List.takeWhile_cons_of_pos hc, List.takeWhile_cons_of_pos (hpq c hc)]
      exact (List.prefix_cons_inj c).2 ih
    · rw [List.takeWhile_cons_of_neg hc]
      exact List.nil_prefix

/-- In plain text a run of hex digits ends with its decimal digits, or goes on with the name that it starts. -/
theorem prefix_of_isHexDigit {c : Char} (hc : isHexDigit c = true) (cs : List Char) :
    if c.isDigit then (lexeme .plain (c :: cs)).text.toList <+: (c :: cs).takeWhile isHexDigit
    else (c :: cs).takeWhile isHexDigit <+: (lexeme .plain (c :: cs)).text.toList := by
  have hplain : ¬(Mode.plain = .integer ∧ c = '-') ∧ ¬(Mode.plain = .hex ∧ isHexDigit c = true) := by simp
  rw [lexeme, if_neg hplain.1, if_neg hplain.2, List.takeWhile_cons_of_pos hc]
  by_cases hdigit : c.isDigit = true
  · rw [if_pos hdigit, if_pos hdigit]
    simp only [reduceCtorEq, if_false, text, String.toList_ofList]
    exact (List.prefix_cons_inj c).2 (takeWhile_isPrefix (fun d hd => isHexDigit_of_isDigit hd) cs)
  · have hname : isNameStart c = true := by
      have hrest := isNameRest_of_isHexDigit hc
      rw [isNameRest, Bool.or_eq_true] at hrest
      exact hrest.resolve_right hdigit
    rw [if_neg hdigit, if_neg hdigit, if_pos hname]
    simp only [text, String.toList_ofList]
    exact (List.prefix_cons_inj c).2 (takeWhile_isPrefix (fun d hd => isNameRest_of_isHexDigit hd) cs)

end Token

namespace Cursor

/-! ### The next token of a cursor -/

variable {cursor : Cursor}

/-- The text follows the cursor with nothing but a gap between, and is no gap itself. -/
def Faces (cursor : Cursor) (text : List Char) : Prop :=
  Significant text ∧ ∃ gap, Gap gap ∧ cursor.rest = gap ++ text

theorem skipGap_rest_of_faces {text : List Char} (h : cursor.Faces text) : cursor.skipGap.rest = text := by
  obtain ⟨hfirst, gap, hgap, hrest⟩ := h
  rw [skipGap, advance, hrest, hgap.gapLength_append, (significant_iff.1 hfirst).2, Nat.add_zero, List.drop_left]

/-- Behind the gap there is nothing, or what the cursor faces. -/
theorem faces_skipGap_rest (h : cursor.skipGap.rest ≠ []) : cursor.Faces cursor.skipGap.rest := by
  rcases lastGap_or_exists_gap cursor.rest with hlast | ⟨gap, text, hrest, hgap, hne, hlength⟩
  · exact absurd (by rw [skipGap, advance, hlast.gapLength_eq, List.drop_length]) h
  · have hfaces : cursor.Faces text := ⟨significant_iff.2 ⟨hne, hlength⟩, gap, hgap, hrest⟩
    rwa [skipGap_rest_of_faces hfaces]

/-- Tokens of the same length leave the cursor at the same place. -/
theorem next_of_lexeme_eq {mode : Mode} {token : Token} (h : Token.lexeme mode cursor.skipGap.rest = token)
    (htext : token.text = (cursor.next .plain).1.text) : cursor.next mode = (token, (cursor.next .plain).2) := by
  rw [next_eq, h, htext]
  rfl

/-- Tokens may be read in any modes.  Where the reader is ready for a name, it finds what it finds in plain text and
leaves the cursor there.  Where it is ready for an integer, so it does, a literal of digits counting as an integer; but
if a minus sign with a digit behind it comes first, it takes the sign and all of the digits.  Where it is ready for a
hex sequence, it finds what it finds in plain text, too; but if a hex digit comes first, it takes all of the hex
digits.  In plain text a number may end before they do, and a name may go on behind them. -/
theorem next_eq_next_plain (source : String) (modes : List Mode) :
    let front := passed ((start source).reads modes)
    let cursor := (start source).afterReads modes
    let plain := cursor.next .plain
    cursor.next .name = plain ∧
    ((¬∃ d ds, d.isDigit = true ∧ cursor.Faces ('-' :: d :: ds)) →
      cursor.next .integer = (plain.1.asInteger, plain.2)) ∧
    (∀ d ds, d.isDigit = true → cursor.Faces ('-' :: d :: ds) → ∃ digits rest,
      d :: ds = digits ++ rest ∧ Run Char.isDigit digits rest ∧
      (cursor.next .integer).1 = .intLiteral (String.ofList ('-' :: digits)) ∧
      StandsBehind source (front ++ cursor.gap ++ '-' :: digits) (cursor.next .integer).2) ∧
    ((¬∃ c cs, isHexDigit c = true ∧ cursor.Faces (c :: cs)) → cursor.next .hex = plain) ∧
    (∀ c cs, isHexDigit c = true → cursor.Faces (c :: cs) → ∃ digits rest,
      c :: cs = digits ++ rest ∧ Run isHexDigit digits rest ∧
      (cursor.next .hex).1 = .hexSequence (String.ofList digits) ∧
      StandsBehind source (front ++ cursor.gap ++ digits) (cursor.next .hex).2 ∧
      if c.isDigit then plain.1.text.toList <+: digits else digits <+: plain.1.text.toList) := by
  intro front cursor plain
  have hcursor : StandsBehind source front cursor := (StandsBehind.start source).afterReads modes
  refine ⟨?_, ?_, ?_, ?_, ?_⟩
  · exact next_of_lexeme_eq (Token.lexeme_name _) rfl
  · intro hnone
    refine next_of_lexeme_eq (Token.lexeme_integer fun d ds hrest => ?_) (Token.text_asInteger _)
    have hfaces : cursor.Faces cursor.skipGap.rest := faces_skipGap_rest (by simp [hrest])
    exact eq_false_of_ne_true fun hd => hnone ⟨d, ds, hd, hrest ▸ hfaces⟩
  · intro d ds hd hfaces
    obtain ⟨digits, rest, hsplit, hrun⟩ := exists_run hd ds
    have htoken : (cursor.next .integer).1 = .intLiteral (String.ofList ('-' :: digits)) := by
      rw [next_eq, skipGap_rest_of_faces hfaces, hsplit, Token.lexeme_integer_of_sign hrun]
    have hbehind := hcursor.next .integer
    rw [htoken, Token.text, String.toList_ofList] at hbehind
    exact ⟨digits, rest, hsplit, hrun, htoken, hbehind⟩
  · intro hnone
    refine next_of_lexeme_eq (Token.lexeme_hex fun c hhead => ?_) rfl
    obtain ⟨cs, hrest⟩ := List.head?_eq_some_iff.1 hhead
    have hfaces : cursor.Faces cursor.skipGap.rest := faces_skipGap_rest (by simp [hrest])
    exact eq_false_of_ne_true fun hc => hnone ⟨c, cs, hc, hrest ▸ hfaces⟩
  · intro c cs hc hfaces
    obtain ⟨digits, rest, hsplit, hrun⟩ := exists_run hc cs
    have htoken : (cursor.next .hex).1 = .hexSequence (String.ofList digits) := by
      rw [next_eq, skipGap_rest_of_faces hfaces, hsplit, Token.lexeme_hex_of_isHexDigit hrun]
    have hbehind := hcursor.next .hex
    rw [htoken, Token.text, String.toList_ofList] at hbehind
    refine ⟨digits, rest, hsplit, hrun, htoken, hbehind, ?_⟩
    have hprefix := Token.prefix_of_isHexDigit hc cs
    rwa [← hrun.eq_takeWhile hsplit, ← skipGap_rest_of_faces hfaces] at hprefix

/-- A name that is longer than its hex digits, a number that is shorter, and two signs of which only the first one
belongs to a number. -/
theorem next_eq_next_plain_four_runs :
    let source := "beefy// é\n12ab -7-x"
    let behind (modes : List Mode) := (start source).afterReads modes
    ((behind []).Faces ('b' :: "eefy// é\n12ab -7-x".toList) ∧ ((behind []).next .hex).1 = .hexSequence "beef" ∧
      ((behind []).next .plain).1 = .identifier "beefy") ∧
    ((behind [.plain]).Faces ('1' :: "2ab -7-x".toList) ∧ ((behind [.plain]).next .hex).1 = .hexSequence "12ab" ∧
      ((behind [.plain]).next .plain).1 = .byteLiteral "12") ∧
    ((behind [.plain, .hex]).Faces ('-' :: '7' :: "-x".toList) ∧
      ((behind [.plain, .hex]).next .integer).1 = .intLiteral "-7" ∧
      ((behind [.plain, .hex]).next .integer).2.position = 18) ∧
    ((¬∃ d ds, d.isDigit = true ∧ (behind [.plain, .hex, .integer]).Faces ('-' :: d :: ds)) ∧
      ((behind [.plain, .hex, .integer]).next .integer).1 = .punctuation '-') := by
  intro source behind
  have hname : (behind []).Faces ('b' :: "eefy// é\n12ab -7-x".toList) :=
    ⟨⟨by decide, by decide, by decide⟩, [], .nil, by decide +kernel⟩
  have hcomment : Gap ("// é".toList ++ '\n' :: []) :=
    .comment ⟨['/', '/'], [' ', 'é'], Or.inr rfl, by decide, rfl⟩ .nil
  have hnumber : (behind [.plain]).Faces ('1' :: "2ab -7-x".toList) :=
    ⟨⟨by decide, by decide, by decide⟩, _, hcomment, by decide +kernel⟩
  have hsign : (behind [.plain, .hex]).Faces ('-' :: '7' :: "-x".toList) :=
    ⟨⟨by decide, by decide, by decide⟩, [' '], .blank (by decide) .nil, by decide +kernel⟩
  have hnone : ¬∃ d ds, d.isDigit = true ∧ (behind [.plain, .hex, .integer]).Faces ('-' :: d :: ds) := by
    rintro ⟨d, ds, hd, hfaces⟩
    have hrest : (behind [.plain, .hex, .integer]).skipGap.rest = ['-', 'x'] := by decide +kernel
    rw [skipGap_rest_of_faces hfaces, List.cons.injEq, List.cons.injEq] at hrest
    rw [hrest.2.1] at hd
    exact absurd hd (by decide)
  refine ⟨⟨hname, ?_, by decide +kernel⟩, ⟨hnumber, ?_, by decide +kernel⟩, ⟨hsign, ?_⟩, hnone, ?_⟩
  · obtain ⟨digits, rest, hsplit, hrun, htoken, -⟩ :=
      (next_eq_next_plain source []).2.2.2.2 'b' _ (by decide) hname
    rw [htoken, hrun.eq_takeWhile hsplit]
    decide +kernel
  · obtain ⟨digits, rest, hsplit, hrun, htoken, -⟩ :=
      (next_eq_next_plain source [.plain]).2.2.2.2 '1' _ (by decide) hnumber
    rw [htoken, hrun.eq_takeWhile hsplit]
    decide +kernel
  · obtain ⟨digits, rest, hsplit, hrun, htoken, hbehind⟩ :=
      (next_eq_next_plain source [.plain, .hex]).2.2.1 '7' _ (by decide) hsign
    rw [hrun.eq_takeWhile hsplit] at htoken hbehind
    exact ⟨htoken.trans (by decide +kernel), hbehind.position_eq.trans (by decide +kernel)⟩
  · rw [(next_eq_next_plain source [.plain, .hex, .integer]).2.1 hnone]
    decide +kernel

end Cursor

end RegisterMachine
