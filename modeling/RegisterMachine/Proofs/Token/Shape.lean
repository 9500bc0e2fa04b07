import RegisterMachine.Proofs.Token.Motion
import RegisterMachine.Proofs.Token.Scanning

/-!
# Shapes

What the text of a token looks like, whatever it was read from: literals are made of digits, identifiers are names,
and no blank is a token (`Cursor.hasShape_next`).  So a token stands on one line, the one that the cursor is on behind
it (`Cursor.newlines_next`).
-/

namespace RegisterMachine

/-- The reader of a gap stops at the end of the text or at a character that is not blank. -/
theorem isBlank_of_head?_drop_gapLength {inComment : Bool} {cs : List Char} {c : Char}
    (h : (cs.drop (gapLength inComment cs)).head? = some c) : isBlank c = false := by
  fun_induction gapLength inComment cs with
  | case1 => cases h
  | case2 d cs ih => exact ih h
  | case3 d cs hblank ih => exact ih h
  | case4 d cs hblank hcomment ih => exact ih h
  | case5 d cs hblank hcomment =>
    rw [List.drop_zero, List.head?_cons, Option.some.injEq] at h
    rw [← h]
    exact eq_false_of_ne_true hblank

theorem of_mem_takeWhile {p : Char → Bool} {cs : List Char} {c : Char} (h : c ∈ cs.takeWhile p) : p c = true :=
  List.all_eq_true.1 List.all_takeWhile c h

namespace Token

/-- The texts that tokens of each kind have. -/
def HasShape : Token → Prop
  | byteLiteral text => text.toList ≠ [] ∧ ∀ c ∈ text.toList, c.isDigit = true
  | identifier text => IsName text.toList
  | intLiteral text => ∃ digits, digits ≠ [] ∧ (∀ c ∈ digits, c.isDigit = true) ∧
      (text.toList = digits ∨ text.toList = '-' :: digits)
  | hexSequence text => text.toList ≠ [] ∧ ∀ c ∈ text.toList, isHexDigit c = true
  | punctuation character => isBlank character = false
  | endOfInput => True

/-- A first character and the run behind it. -/
private theorem run_shape {p : Char → Bool} {c : Char} (hc : p c = true) (cs : List Char) {text : String}
    (htext : text = String.ofList (c :: cs.takeWhile p)) : text.toList ≠ [] ∧ ∀ d ∈ text.toList, p d = true := by
  rw [htext, String.toList_ofList, List.forall_mem_cons]
  exact ⟨List.cons_ne_nil _ _, hc, fun d hd => of_mem_takeWhile hd⟩

theorem hasShape_lexeme (mode : Mode) {cs : List Char} (h : ∀ c, cs.head? = some c → isBlank c = false) :
    (lexeme mode cs).HasShape := by
  fun_cases lexeme mode cs with
  | case1 => trivial
  | case2 c cs hmode hdigits => exact (by decide : isBlank '-' = false)
  | case3 c cs hmode hdigits =>
    exact ⟨cs.takeWhile Char.isDigit, hdigits, fun d hd => of_mem_takeWhile hd, Or.inr String.toList_ofList⟩
  | case4 c cs hmode hhex => exact run_shape hhex.2 cs rfl
  | case5 c cs hmode hhex hdigit digits =>
    obtain ⟨hne, hall⟩ := run_shape hdigit cs (rfl : digits = _)
    exact ⟨digits.toList, hne, hall, Or.inl rfl⟩
  | case6 c cs hmode hhex hdigit digits => exact run_shape hdigit cs rfl
  | case7 c cs hmode hhex hdigit hname =>
    show IsName (String.ofList _).toList
    rw [String.toList_ofList]
    exact ⟨hname, fun d hd => of_mem_takeWhile hd⟩
  | case8 c cs => exact h c rfl

/-- A token stands on one line. -/
theorem HasShape.newline_notMem {token : Token} (h : token.HasShape) : '\n' ∉ token.text.toList := by
  intro hmem
  cases token with
  | byteLiteral word => exact absurd (h.2 _ hmem) (by decide)
  | identifier word =>
    have hname : IsName word.toList := h
    have hword : '\n' ∈ word.toList := hmem
    cases htext : word.toList with
    | nil =>
      rw [htext] at hword
      cases hword
    | cons c cs =>
      rw [htext] at hname hword
      rcases List.mem_cons.1 hword with heq | hrest
      · exact absurd (heq ▸ hname.1) (by decide)
      · exact absurd (hname.2 _ hrest) (by decide)
  | intLiteral word =>
    obtain ⟨digits, -, hdigits, htext | htext⟩ := h
    · exact absurd (hdigits '\n' (htext ▸ hmem)) (by decide)
    · have hword : '\n' ∈ word.toList := hmem
      rw [htext] at hword
      rcases List.mem_cons.1 hword with heq | hrest
      · exact absurd heq (by decide)
      · exact absurd (hdigits _ hrest) (by decide)
  | hexSequence word => exact absurd (h.2 _ hmem) (by decide)
  | punctuation character =>
    have heq : '\n' = character := by simpa [text] using hmem
    have hblank : isBlank character = false := h
    exact absurd (heq ▸ hblank) (by decide)
  | endOfInput => exact absurd hmem (by decide)

end Token

namespace Cursor

theorem hasShape_next (mode : Mode) (cursor : Cursor) : (cursor.next mode).1.HasShape :=
  Token.hasShape_lexeme mode fun _ hc => isBlank_of_head?_drop_gapLength hc

/-- The newlines in front of a cursor that read a token are those in front of the token. -/
theorem newlines_next (mode : Mode) (cursor : Cursor) : (cursor.next mode).2.newlines = cursor.skipGap.newlines := by
  have htake := List.prefix_iff_eq_take.1 (Token.text_lexeme_isPrefix mode cursor.skipGap.rest)
  have hnone : (Token.lexeme mode cursor.skipGap.rest).text.toList.count '\n' = 0 :=
    List.count_eq_zero.2 (hasShape_next mode cursor).newline_notMem
  rw [htake, String.length_toList] at hnone
  rw [next_eq]
  show cursor.skipGap.newlines + _ = _
  rw [hnone, Nat.add_zero]

end Cursor

end RegisterMachine
