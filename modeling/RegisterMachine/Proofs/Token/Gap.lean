import RegisterMachine.Token.Cursor
import RegisterMachine.Proofs.Text.Spelling

/-!
# Gaps

The text between tokens, described without the reader that skips it: blanks, and comments that end with their lines.
The reader skips a gap to its end and goes no further (`Gap.gapLength_append`), it skips nothing but gaps
(`lastGap_or_exists_gap`), and no token reaches into a gap (`takeWhile_of_startsGap`).
-/

namespace RegisterMachine

/-- A comment up to the end of its line. -/
def Comment (cs : List Char) : Prop :=
  ∃ marker body, (marker = ['#'] ∨ marker = ['/', '/']) ∧ '\n' ∉ body ∧ cs = marker ++ body

/-- Blanks and comments in any order, each comment with its newline. -/
inductive Gap : List Char → Prop
  | nil : Gap []
  | blank {c : Char} {cs : List Char} (hc : isBlank c = true) (h : Gap cs) : Gap (c :: cs)
  | comment {cs ds : List Char} (hcs : Comment cs) (h : Gap ds) : Gap (cs ++ '\n' :: ds)

/-- What may follow the last token: a gap, or a gap and a comment without newline. -/
inductive LastGap : List Char → Prop
  | gap {cs : List Char} (h : Gap cs) : LastGap cs
  | comment {cs ds : List Char} (h : Gap cs) (hds : Comment ds) : LastGap (cs ++ ds)

/-- The text is empty or starts with a character that no token here has. -/
def StartsGap : List Char → Prop
  | [] => True
  | c :: _ => isBlank c = true ∨ c = '#' ∨ c = '/'

/-! ### Skipping gaps -/

private theorem gapLength_comment {body : List Char} (h : '\n' ∉ body) (rest : List Char) :
    gapLength true (body ++ rest) = body.length + gapLength true rest := by
  induction body with
  | nil => rw [List.nil_append, List.length_nil, Nat.zero_add]
  | cons c body ih =>
    rw [List.mem_cons, not_or] at h
    have hc : (c != '\n') = true := bne_iff_ne.2 (Ne.symm h.1)
    rw [List.cons_append, gapLength, hc, ih h.2, List.length_cons]
    omega

private theorem Comment.gapLength_append {cs : List Char} (h : Comment cs) (rest : List Char) :
    gapLength false (cs ++ rest) = cs.length + gapLength true rest := by
  obtain ⟨marker, body, hmarker, hbody, rfl⟩ := h
  have hhash : isBlank '#' = false := by decide
  have hslash : isBlank '/' = false := by decide
  rcases hmarker with rfl | rfl
  · have hlength := gapLength_comment hbody rest
    simp only [List.cons_append, List.nil_append, gapLength, hhash, Bool.false_eq_true, if_false, true_or, if_true,
      hlength, List.length_cons]
    omega
  · -- The second slash is the first character that the reader takes for the comment.
    have hslashBody : '\n' ∉ '/' :: body := by simp [hbody]
    have hlength := gapLength_comment hslashBody rest
    simp only [List.cons_append, List.length_cons] at hlength
    simp only [List.cons_append, List.nil_append, gapLength, hslash, Bool.false_eq_true, if_false, List.head?_cons,
      true_and, or_true, if_true, List.length_cons]
    rw [gapLength] at hlength
    omega

theorem Gap.gapLength_append {cs : List Char} (h : Gap cs) (rest : List Char) :
    gapLength false (cs ++ rest) = cs.length + gapLength false rest := by
  induction h with
  | nil => rw [List.nil_append, List.length_nil, Nat.zero_add]
  | blank hc h ih =>
    rw [List.cons_append, gapLength, if_pos hc, ih, List.length_cons]
    omega
  | comment hcs h ih =>
    rw [List.append_assoc, hcs.gapLength_append, List.cons_append, gapLength, List.length_append, List.length_cons]
    have hnewline : ('\n' != '\n') = false := by decide
    rw [hnewline, ih]
    omega

theorem LastGap.gapLength_eq {cs : List Char} (h : LastGap cs) : gapLength false cs = cs.length := by
  cases h with
  | gap h =>
    have hlength := h.gapLength_append []
    rwa [List.append_nil, gapLength] at hlength
  | comment h hds =>
    have hlength := hds.gapLength_append []
    rw [List.append_nil, gapLength] at hlength
    rw [h.gapLength_append, hlength, List.length_append, Nat.add_zero]

/-! ### What is skipped -/

/-- The start of a comment, taken to the end of its line. -/
private theorem exists_comment {c : Char} {cs : List Char} (h : c = '#' ∨ (c = '/' ∧ cs.head? = some '/')) :
    ∃ line rest, c :: cs = line ++ rest ∧ Comment line ∧ (rest = [] ∨ ∃ back, rest = '\n' :: back) := by
  have hbody (cs : List Char) : '\n' ∉ cs.takeWhile (· != '\n') := by
    intro hmem
    have hne := List.all_eq_true.1 List.all_takeWhile '\n' hmem
    exact absurd hne (by decide)
  have hrest (cs : List Char) : cs.dropWhile (· != '\n') = [] ∨ ∃ back, cs.dropWhile (· != '\n') = '\n' :: back := by
    cases hdrop : cs.dropWhile (· != '\n') with
    | nil => exact Or.inl rfl
    | cons d back =>
      have hstop := List.head?_dropWhile_not (· != '\n') cs
      rw [hdrop] at hstop
      have hnewline : d = '\n' := by simpa using hstop
      exact Or.inr ⟨back, by rw [hnewline]⟩
  rcases h with rfl | ⟨rfl, hhead⟩
  · refine ⟨'#' :: cs.takeWhile (· != '\n'), cs.dropWhile (· != '\n'), ?_, ?_, hrest cs⟩
    · rw [List.cons_append, List.takeWhile_append_dropWhile]
    · exact ⟨['#'], _, Or.inl rfl, hbody cs, rfl⟩
  · obtain ⟨body, rfl⟩ := List.head?_eq_some_iff.1 hhead
    refine ⟨'/' :: '/' :: body.takeWhile (· != '\n'), body.dropWhile (· != '\n'), ?_, ?_, hrest body⟩
    · rw [List.cons_append, List.cons_append, List.takeWhile_append_dropWhile]
    · exact ⟨['/', '/'], _, Or.inr rfl, hbody body, rfl⟩

private theorem LastGap.cons {c : Char} {cs : List Char} (hc : isBlank c = true) (h : LastGap cs) :
    LastGap (c :: cs) := by
  cases h with
  | gap h => exact .gap (.blank hc h)
  | comment h hds => exact .comment (.blank hc h) hds

private theorem LastGap.append {line cs : List Char} (hline : Comment line) (h : LastGap cs) :
    LastGap (line ++ '\n' :: cs) := by
  cases h with
  | gap h => exact .gap (.comment hline h)
  | comment h hds =>
    rw [← List.cons_append, ← List.append_assoc]
    exact .comment (.comment hline h) hds

/-- A text is nothing but a gap, or a gap is followed by a character that the reader does not skip. -/
theorem lastGap_or_exists_gap (cs : List Char) :
    LastGap cs ∨ ∃ gap rest, cs = gap ++ rest ∧ Gap gap ∧ rest ≠ [] ∧ gapLength false rest = 0 := by
  induction hlength : cs.length using Nat.strongRecOn generalizing cs with
  | ind length ih =>
    cases cs with
    | nil => exact Or.inl (.gap .nil)
    | cons c cs =>
      by_cases hblank : isBlank c = true
      · rcases ih cs.length (by simp [← hlength]) cs rfl with hlast | ⟨gap, rest, rfl, hgap, hrest⟩
        · exact Or.inl (hlast.cons hblank)
        · exact Or.inr ⟨c :: gap, rest, rfl, .blank hblank hgap, hrest⟩
      · by_cases hcomment : c = '#' ∨ (c = '/' ∧ cs.head? = some '/')
        · obtain ⟨line, rest, hsplit, hline, rfl | ⟨back, rfl⟩⟩ := exists_comment hcomment
          · rw [hsplit, List.append_nil]
            exact Or.inl (.comment .nil hline)
          · -- Behind the newline of the comment the text is shorter.
            have hshorter : back.length < length := by
              rw [← hlength, hsplit]
              simp only [List.length_append, List.length_cons]
              omega
            rw [hsplit]
            rcases ih back.length hshorter back rfl with hlast | ⟨gap, rest, rfl, hgap, hrest⟩
            · exact Or.inl (hlast.append hline)
            · exact Or.inr ⟨line ++ '\n' :: gap, rest, by simp, .comment hline hgap, hrest⟩
        · refine Or.inr ⟨[], c :: cs, rfl, .nil, List.cons_ne_nil c cs, ?_⟩
          rw [gapLength, if_neg hblank, if_neg hcomment]

/-! ### Runs -/

theorem takeWhile_append_of_stops {p : Char → Bool} {cs rest : List Char} (hcs : ∀ c ∈ cs, p c = true)
    (hstop : ∀ c, rest.head? = some c → p c = false) : (cs ++ rest).takeWhile p = cs := by
  rw [List.takeWhile_append_of_pos hcs]
  cases rest with
  | nil => rw [List.takeWhile_nil, List.append_nil]
  | cons c rest => rw [List.takeWhile_cons_of_neg (by simp [hstop c rfl]), List.append_nil]

/-- The text is a run of characters of one class and what is left behind it, and no shorter or longer run is there. -/
structure Run (p : Char → Bool) (run rest : List Char) : Prop where
  ne_nil : run ≠ []
  forall_mem : ∀ c ∈ run, p c = true
  stops : ∀ c, rest.head? = some c → p c = false

theorem Run.takeWhile_append {p : Char → Bool} {run rest : List Char} (h : Run p run rest) :
    (run ++ rest).takeWhile p = run := takeWhile_append_of_stops h.forall_mem h.stops

theorem Run.eq_takeWhile {p : Char → Bool} {cs run rest : List Char} (h : Run p run rest)
    (hsplit : cs = run ++ rest) : run = cs.takeWhile p := by
  rw [hsplit, h.takeWhile_append]

/-! ### Where gaps start -/

theorem Comment.startsGap {cs : List Char} (h : Comment cs) (rest : List Char) : StartsGap (cs ++ rest) := by
  obtain ⟨marker, body, rfl | rfl, -, rfl⟩ := h
  · exact Or.inr (Or.inl rfl)
  · exact Or.inr (Or.inr rfl)

theorem Gap.startsGap {cs : List Char} (h : Gap cs) (hne : cs ≠ []) (rest : List Char) : StartsGap (cs ++ rest) := by
  cases h with
  | nil => exact absurd rfl hne
  | blank hc h => exact Or.inl hc
  | comment hcs h =>
    rw [List.append_assoc]
    exact hcs.startsGap _

theorem LastGap.startsGap {cs : List Char} (h : LastGap cs) : StartsGap cs := by
  cases h with
  | gap h =>
    cases cs with
    | nil => trivial
    | cons c cs => simpa using h.startsGap (List.cons_ne_nil c cs) []
  | @comment cs ds h hds =>
    cases cs with
    | nil => simpa using hds.startsGap []
    | cons c cs => exact h.startsGap (List.cons_ne_nil c cs) ds

theorem not_startsGap_of_isNameRest {c : Char} (hc : isNameRest c = true) (cs : List Char) :
    ¬StartsGap (c :: cs) := by
  have hrange := hc
  rw [isNameRest, Bool.or_eq_true, isNameStart_iff, isDigit_iff] at hrange
  have hhash : c = '#' ↔ c.toNat = 35 := Char.toNat_inj.symm
  have hslash : c = '/' ↔ c.toNat = 47 := Char.toNat_inj.symm
  rintro (hblank | hmarker | hmarker)
  · simp only [isBlank, Bool.or_eq_true, Bool.and_eq_true, decide_eq_true_eq, beq_iff_eq] at hblank
    omega
  · rw [hhash] at hmarker
    omega
  · rw [hslash] at hmarker
    omega

/-- No character that names consist of starts a gap. -/
theorem StartsGap.stops {p : Char → Bool} (hp : ∀ c, p c = true → isNameRest c = true) {rest : List Char}
    (h : StartsGap rest) : ∀ c, rest.head? = some c → p c = false := by
  intro c hhead
  obtain ⟨cs, rfl⟩ := List.head?_eq_some_iff.1 hhead
  exact eq_false_of_ne_true fun hc => not_startsGap_of_isNameRest (hp c hc) cs h

/-- Runs of characters that names consist of end where a gap starts. -/
theorem takeWhile_of_startsGap {p : Char → Bool} (hp : ∀ c, p c = true → isNameRest c = true) {cs rest : List Char}
    (hcs : ∀ c ∈ cs, p c = true) (hrest : StartsGap rest) : (cs ++ rest).takeWhile p = cs :=
  takeWhile_append_of_stops hcs (hrest.stops hp)

theorem gapLength_of_not_startsGap {c : Char} {cs : List Char} (h : ¬StartsGap (c :: cs)) :
    gapLength false (c :: cs) = 0 := by
  rw [StartsGap, not_or, not_or] at h
  rw [gapLength, if_neg h.1, if_neg]
  rintro (hhash | ⟨hslash, -⟩)
  · exact h.2.1 hhash
  · exact h.2.2 hslash

end RegisterMachine
