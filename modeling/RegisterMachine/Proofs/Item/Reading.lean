import RegisterMachine.Proofs.Item.Stream

/-!
# Reading

A chunk is read off the tokens of its text, one item after the other (`Chunk.ofCursor_eq_ofTokens`).  So the tokens of
two texts make the items of the first one and then those of the second one, unless the reading of the first one fails
(`Chunk.ofTokens_append`), and tokens further on in a source make the same items further on (`Chunk.ofTokens_later`).
-/

namespace RegisterMachine

/-! ### Reading one item -/

namespace Item

/-- What a literal encodes is built from its value. -/
theorem encode_eq_ok_iff {α : Type} {value : Except EncodeError α} {build : α → Item} {item : Item} :
    (value.map build).mapError AssemblyError.Cause.encode = .ok item ↔ ∃ a, value = .ok a ∧ item = build a := by
  cases value with
  | ok a =>
    constructor
    · intro h
      cases h
      exact ⟨a, rfl, rfl⟩
    · rintro ⟨b, hvalue, rfl⟩
      cases hvalue
      rfl
  | error error => exact iff_of_false nofun fun ⟨_, hvalue, _⟩ => nomatch hvalue

end Item

namespace SourceItem

variable {cursor behind last : Cursor} {token operand : Token} {directive : Directive}

theorem read_of_endOfInput (h : (cursor.next .plain).1 = .endOfInput) : read cursor = .ok none := by
  unfold read
  exact if_pos h

theorem read_of_token (h : cursor.next .plain = (token, behind)) (hne : token ≠ .endOfInput)
    (hdirective : token.directive? = none) : read cursor = place behind.line behind (Item.ofToken token) := by
  unfold read
  rw [h]
  dsimp only
  rw [if_neg hne, hdirective]

theorem read_of_directive (h : cursor.next .plain = (token, behind)) (hne : token ≠ .endOfInput)
    (hdirective : token.directive? = some directive) (hlast : behind.next directive.mode = (operand, last))
    (hoperand : operand ≠ .endOfInput) :
    read cursor = place last.line last (Item.ofOperand directive operand) := by
  unfold read
  rw [h]
  dsimp only
  rw [if_neg hne, hdirective]
  dsimp only
  rw [hlast, if_neg hoperand]

theorem read_of_missing (h : cursor.next .plain = (token, behind)) (hne : token ≠ .endOfInput)
    (hdirective : token.directive? = some directive) (hlast : (behind.next directive.mode).1 = .endOfInput) :
    read cursor = .error ⟨.missingOperand directive, some behind.line⟩ := by
  unfold read
  rw [h]
  dsimp only
  rw [if_neg hne, hdirective]
  dsimp only
  rw [hlast, if_pos rfl]
  cases directive <;> rfl

end SourceItem

/-! ### Reading a chunk -/

namespace Chunk

/-- The chunk that starts with an item, or the error in its place. -/
def cons (line : Nat) : Except AssemblyError.Cause Item → Chunk → Chunk
  | .ok item, others => ⟨⟨item, line⟩ :: others.items, others.failure⟩
  | .error cause, _ => ⟨[], some ⟨cause, some line⟩⟩

/-- What tokens say, one item after the other. -/
def ofTokens : List PlacedToken → Chunk
  | [] => ⟨[], none⟩
  | first :: tokens =>
    match first.token.directive? with
    | none => cons first.line (Item.ofToken first.token) (ofTokens tokens)
    | some directive =>
      match tokens with
      | [] => ⟨[], some ⟨.missingOperand directive, some first.line⟩⟩
      | operand :: tokens => cons operand.line (Item.ofOperand directive operand.token) (ofTokens tokens)

theorem ofTokens_of_token {first : PlacedToken} (h : first.token.directive? = none) (tokens : List PlacedToken) :
    ofTokens (first :: tokens) = cons first.line (Item.ofToken first.token) (ofTokens tokens) := by
  rw [ofTokens, h]

theorem ofTokens_of_directive {first : PlacedToken} {directive : Directive}
    (h : first.token.directive? = some directive) (operand : PlacedToken) (tokens : List PlacedToken) :
    ofTokens (first :: operand :: tokens) =
      cons operand.line (Item.ofOperand directive operand.token) (ofTokens tokens) := by
  rw [ofTokens, h]

theorem ofTokens_of_missing {first : PlacedToken} {directive : Directive}
    (h : first.token.directive? = some directive) :
    ofTokens [first] = ⟨[], some ⟨.missingOperand directive, some first.line⟩⟩ := by
  rw [ofTokens, h]

variable {cursor behind : Cursor}

private theorem ofCursor_of_place {line : Nat} {result : Except AssemblyError.Cause Item}
    (h : SourceItem.read cursor = SourceItem.place line behind result) :
    ofCursor cursor = cons line result (ofCursor behind) := by
  rw [ofCursor_eq, h]
  cases result <;> rfl

/-- A token that the cursor is behind is counted to the line of the cursor. -/
private theorem line_counted (token : Token) (cursor : Cursor) :
    (PlacedToken.counted ⟨token, cursor.newlines⟩).line = cursor.line := by
  simp only [PlacedToken.line, PlacedToken.counted, Cursor.line]
  omega

/-- A chunk is what the tokens of its text say, on the lines that are counted for them. -/
theorem ofCursor_eq_ofTokens_counted (cursor : Cursor) :
    ofCursor cursor = ofTokens ((cursor.stream .plain).map PlacedToken.counted) := by
  induction hlength : cursor.rest.length using Nat.strongRecOn generalizing cursor with
  | ind length ih =>
    by_cases hend : (cursor.next .plain).1 = .endOfInput
    · rw [ofCursor_eq, SourceItem.read_of_endOfInput hend, Cursor.stream_of_endOfInput hend, List.map_nil, ofTokens]
    · have hshorter := Cursor.rest_next_lt hend
      obtain ⟨token, behind, hnext⟩ : ∃ token behind, cursor.next .plain = (token, behind) := ⟨_, _, rfl⟩
      rw [hnext] at hend hshorter
      rw [Cursor.stream_of_next hnext hend, List.map_cons]
      cases hdirective : token.directive? with
      | none =>
        have hcounted : (PlacedToken.counted ⟨token, behind.newlines⟩).token.directive? = none := hdirective
        rw [ofCursor_of_place (SourceItem.read_of_token hnext hend hdirective), ih _ (hlength ▸ hshorter) _ rfl,
          ofTokens_of_token hcounted, line_counted, Mode.behind, hdirective]
        rfl
      | some directive =>
        have hcounted : (PlacedToken.counted ⟨token, behind.newlines⟩).token.directive? = some directive := hdirective
        rw [Mode.behind, hdirective]
        dsimp only
        -- Behind a directive the stream goes on with the operand, if there is one.
        by_cases hlast : (behind.next directive.mode).1 = .endOfInput
        · rw [ofCursor_eq, SourceItem.read_of_missing hnext hend hdirective hlast,
            Cursor.stream_of_endOfInput hlast, List.map_nil, ofTokens_of_missing hcounted, line_counted]
        · have hrest := Nat.lt_of_le_of_lt (Cursor.rest_next_le directive.mode behind) hshorter
          obtain ⟨operand, last, hoperand⟩ : ∃ operand last, behind.next directive.mode = (operand, last) :=
            ⟨_, _, rfl⟩
          rw [hoperand] at hlast hrest
          rw [ofCursor_of_place (SourceItem.read_of_directive hnext hend hdirective hoperand hlast),
            ih _ (hlength ▸ hrest) _ rfl, Cursor.stream_of_next hoperand hlast, List.map_cons,
            ofTokens_of_directive hcounted, line_counted]
          cases directive <;> rfl

/-- The count does not stop in a text with fewer lines. -/
theorem ofCursor_eq_ofTokens (h : cursor.lineCount < 4294967296) :
    ofCursor cursor = ofTokens (cursor.stream .plain) := by
  have hcounted : ∀ placed ∈ cursor.stream .plain, placed.counted = placed := by
    intro placed hplaced
    have hlt := Cursor.newlines_lt_of_mem_stream hplaced
    rw [PlacedToken.counted, Nat.min_eq_left (by omega)]
  rw [ofCursor_eq_ofTokens_counted, List.map_congr_left hcounted, List.map_id']

theorem ofSource_eq_ofTokens {source : String} (h : source.toList.count '\n' + 1 < 4294967296) :
    ofSource source = ofTokens ((Cursor.start source).stream .plain) :=
  ofCursor_eq_ofTokens (by rwa [Cursor.lineCount, Cursor.start, Nat.zero_add])

/-- The error that ends a reading has a line. -/
theorem exists_line_of_failure {tokens : List PlacedToken} {error : AssemblyError}
    (h : (ofTokens tokens).failure = some error) : ∃ cause line, error = ⟨cause, some line⟩ := by
  have hcons {line : Nat} {result : Except AssemblyError.Cause Item} {others : Chunk}
      (hothers : others.failure = some error → ∃ cause line, error = ⟨cause, some line⟩)
      (hfailure : (cons line result others).failure = some error) : ∃ cause line, error = ⟨cause, some line⟩ := by
    cases result with
    | ok item => exact hothers hfailure
    | error cause =>
      cases hfailure
      exact ⟨cause, line, rfl⟩
  fun_induction ofTokens tokens with
  | case1 => cases h
  | case2 first tokens hdirective ih => exact hcons ih h
  | case3 first directive hdirective =>
    cases h
    exact ⟨_, _, rfl⟩
  | case4 first directive hdirective operand tokens ih => exact hcons ih h

/-! ### More tokens -/

/-- Tokens that start with an item fail only behind it. -/
theorem exists_of_failure_cons {line : Nat} {result : Except AssemblyError.Cause Item} {others : Chunk}
    (h : (cons line result others).failure = none) : (∃ item, result = .ok item) ∧ others.failure = none := by
  cases result with
  | ok item => exact ⟨⟨item, rfl⟩, h⟩
  | error cause => cases h

/-- A reader that reads to the end of its tokens is ready for a statement there. -/
theorem foldl_behind_of_failure {tokens : List PlacedToken} (h : (ofTokens tokens).failure = none) :
    tokens.foldl Mode.behind .plain = .plain := by
  fun_induction ofTokens tokens with
  | case1 => rfl
  | case2 first tokens hdirective ih =>
    rw [List.foldl_cons, Mode.behind, hdirective]
    exact ih (exists_of_failure_cons h).2
  | case3 first directive hdirective => cases h
  | case4 first directive hdirective operand tokens ih =>
    have hoperand : (Mode.behind .plain first).behind operand = .plain := by
      rw [Mode.behind, hdirective]
      cases directive <;> rfl
    rw [List.foldl_cons, List.foldl_cons, hoperand]
    exact ih (exists_of_failure_cons h).2

/-- Tokens behind others that say whole items say what they say alone. -/
theorem ofTokens_append {front : List PlacedToken} (h : (ofTokens front).failure = none) (back : List PlacedToken) :
    ofTokens (front ++ back) = ⟨(ofTokens front).items ++ (ofTokens back).items, (ofTokens back).failure⟩ := by
  fun_induction ofTokens front with
  | case1 => rfl
  | case2 first tokens hdirective ih =>
    obtain ⟨⟨item, hitem⟩, htokens⟩ := exists_of_failure_cons h
    rw [List.cons_append, ofTokens_of_token hdirective, hitem, ih htokens]
    rfl
  | case3 first directive hdirective => cases h
  | case4 first directive hdirective operand tokens ih =>
    obtain ⟨⟨item, hitem⟩, htokens⟩ := exists_of_failure_cons h
    rw [List.cons_append, List.cons_append, ofTokens_of_directive hdirective, hitem, ih htokens]
    rfl

end Chunk

/-! ### The same tokens further on -/

def SourceItem.later (lines : Nat) (item : SourceItem) : SourceItem := { item with line := item.line + lines }

def AssemblyError.later (lines : Nat) (error : AssemblyError) : AssemblyError :=
  { error with line := error.line.map (· + lines) }

namespace Chunk

/-- The chunk of a text that stands further on in its source. -/
def later (lines : Nat) (chunk : Chunk) : Chunk where
  items := chunk.items.map (SourceItem.later lines)
  failure := chunk.failure.map (AssemblyError.later lines)

private theorem later_cons (lines line : Nat) (result : Except AssemblyError.Cause Item) (others : Chunk) :
    (cons line result others).later lines = cons (line + lines) result (others.later lines) := by
  cases result <;> rfl

private theorem line_later (lines : Nat) (placed : PlacedToken) :
    (placed.later lines).line = placed.line + lines := by
  simp only [PlacedToken.line, PlacedToken.later]
  omega

theorem ofTokens_later (lines : Nat) (tokens : List PlacedToken) :
    ofTokens (tokens.map (PlacedToken.later lines)) = (ofTokens tokens).later lines := by
  fun_induction ofTokens tokens with
  | case1 => rfl
  | case2 first tokens hdirective ih =>
    have hlater : (first.later lines).token.directive? = none := hdirective
    rw [List.map_cons, ofTokens_of_token hlater, ih, line_later, later_cons]
    rfl
  | case3 first directive hdirective =>
    have hlater : (first.later lines).token.directive? = some directive := hdirective
    rw [List.map_cons, List.map_nil, ofTokens_of_missing hlater, line_later]
    rfl
  | case4 first directive hdirective operand tokens ih =>
    have hlater : (first.later lines).token.directive? = some directive := hdirective
    rw [List.map_cons, List.map_cons, ofTokens_of_directive hlater, ih, line_later, later_cons]
    rfl

/-- Only a chunk that reads to its end can be followed by another one in the same text. -/
theorem ofSource_append {first second : String} (h : (ofSource first).failure = none)
    (hlines : (first ++ "\n" ++ second).toList.count '\n' + 1 < 4294967296) :
    ofSource (first ++ "\n" ++ second) =
      ⟨(ofSource first).items ++ ((ofSource second).later (first.toList.count '\n' + 1)).items,
        ((ofSource second).later (first.toList.count '\n' + 1)).failure⟩ := by
  have htext : (first ++ "\n" ++ second).toList = first.toList ++ '\n' :: second.toList := by simp
  have hstart : Cursor.start (first ++ "\n" ++ second) = (Cursor.start first).append second.toList := by
    rw [Cursor.start, htext]
    rfl
  have hbeyond : (Cursor.start first).beyond second.toList =
      (Cursor.start second).later (utf8Length first.toList + 1) (first.toList.count '\n' + 1) := by
    simp only [Cursor.beyond, Cursor.start, Cursor.later, Nat.zero_add]
  rw [ofSource_eq_ofTokens hlines]
  rw [htext, List.count_append, List.count_cons_self] at hlines
  have hlinesFirst : first.toList.count '\n' + 1 < 4294967296 := by omega
  have hlinesSecond : second.toList.count '\n' + 1 < 4294967296 := by omega
  have hfirst := ofSource_eq_ofTokens hlinesFirst
  have hsecond := ofSource_eq_ofTokens hlinesSecond
  rw [hfirst] at h
  rw [hstart, Cursor.stream_append, foldl_behind_of_failure h, hbeyond, Cursor.stream_later, ofTokens_append h,
    ofTokens_later, hfirst, hsecond]

end Chunk

end RegisterMachine
