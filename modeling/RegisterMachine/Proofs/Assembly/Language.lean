import RegisterMachine.Proofs.Assembly.History
import RegisterMachine.Proofs.Item.Meaning

/-!
# The language of sources

The sources that an assembly takes are those whose tokens are a sentence, and the error of any other source is the one
of its first flaw, on the line of the flaw (`load_iff_sentence`).
-/

namespace RegisterMachine

open Assembling
open LoadedItem (plain)

variable {defined : String → Prop} {loaded : List Item} {tokens : List PlacedToken} {error : AssemblyError}

/-! ### Reading phrases -/

/-- A phrase reads as an item that defines its label, whatever follows. -/
theorem Phrase.exists_item {label? : Option String} (h : Phrase tokens label?)
    (hshape : ∀ placed ∈ tokens, placed.token.HasShape) :
    ∃ item : SourceItem, item.item.definition? = label? ∧ ∀ back, Chunk.ofTokens (tokens ++ back) =
      ⟨item :: (Chunk.ofTokens back).items, (Chunk.ofTokens back).failure⟩ := by
  obtain ⟨item, hmeans, hlabel⟩ := h.exists_means hshape
  exact ⟨item, hlabel, hmeans.ofTokens_append⟩

private theorem Item.ofToken_of_not_begins {token : Token} (h : ¬token.Begins) :
    token.directive? = none ∧ ofToken token = .error (.unexpectedToken .statement token) := by
  cases token with
  | byteLiteral text | identifier word => exact absurd trivial h
  | _ => exact ⟨rfl, rfl⟩

private theorem Item.ofOperand_of_not_takes {directive : Directive} {token : Token} (h : ¬directive.Takes token)
    (hne : token ≠ .endOfInput) :
    ofOperand directive token = .error (.unexpectedToken (.operand directive) token) := by
  cases directive with
  | label =>
    cases token with
    | identifier name => exact absurd trivial h
    | endOfInput => exact absurd rfl hne
    | _ => rfl
  | int =>
    cases token with
    | identifier name | intLiteral text => exact absurd trivial h
    | endOfInput => exact absurd rfl hne
    | _ => rfl
  | hex =>
    cases token with
    | hexSequence digits => exact absurd trivial h
    | endOfInput => exact absurd rfl hne
    | _ => rfl

/-- A flaw is the error of the tokens that start with it. -/
theorem Flaw.error?_eq (h : Flaw defined tokens error)
    (hdefined : ∀ name, defined name → name ∈ Image.definitions loaded)
    (htokens : ∀ placed ∈ tokens, placed.token ≠ .endOfInput ∧ placed.token.HasShape) :
    (Chunk.ofTokens tokens).error? loaded = some error := by
  cases h with
  | @statement token k rest htoken =>
    obtain ⟨hdirective, hitem⟩ := Item.ofToken_of_not_begins htoken
    rw [Chunk.ofTokens_of_token hdirective, hitem]
    rfl
  | @byte text k rest htext =>
    rw [Chunk.ofTokens_of_token rfl, Item.ofToken, Literal.byte_of_not_isByte htext]
    rfl
  | @opcode word k rest hdirective hop =>
    have hnone : (Token.identifier word).directive? = none := by
      rw [Token.directive?, Option.eq_none_iff_forall_ne_some]
      intro directive hsome
      exact hdirective directive (Directive.ofWord?_eq_some_iff.1 hsome)
    have hunknown : Opcode.ofMnemonic? word = none := by
      rw [Option.eq_none_iff_forall_ne_some]
      intro op hsome
      exact hop op (Opcode.ofMnemonic?_eq_some_iff.1 hsome)
    rw [Chunk.ofTokens_of_token hnone, Item.ofToken, Literal.mnemonic, hunknown]
    rfl
  | @missing directive word j hword =>
    rw [Chunk.ofTokens_of_missing hword.directive?_eq_some]
    rfl
  | @operand directive word token j k rest hword htoken =>
    have hne : token ≠ .endOfInput := (htokens ⟨token, k⟩ (by simp)).1
    rw [Chunk.ofTokens_of_directive hword.directive?_eq_some, Item.ofOperand_of_not_takes htoken hne]
    rfl
  | @label word name j k rest hword hname =>
    rw [Chunk.ofTokens_of_directive hword.directive?_eq_some, Item.ofOperand, Chunk.cons, Chunk.error?,
      SourceItem.taken, Item.refusal?, if_pos (hdefined name hname)]
    rfl
  | @word word text j k rest hword htext =>
    rw [Chunk.ofTokens_of_directive hword.directive?_eq_some, Item.ofOperand, Literal.int_of_not_isWord htext]
    rfl
  | @bytes word digits j k rest hword hodd =>
    have hdigits : (Token.hexSequence digits).HasShape := (htokens ⟨.hexSequence digits, k⟩ (by simp)).2
    rw [Chunk.ofTokens_of_directive hword.directive?_eq_some, Item.ofOperand, Literal.hex_of_odd hdigits.2 hodd]
    rfl

/-! ### Taking sentences -/

/-- An item whose label is new is taken as long as the code fits in 32 bits. -/
private theorem taken_cons {item : SourceItem} (hfresh : ∀ name, item.item.definition? = some name →
    name ∉ Image.definitions loaded) (hsize : Image.size loaded < 4294967296) (items : List SourceItem) :
    SourceItem.taken loaded (item :: items) =
      (item :: (SourceItem.taken (loaded ++ [item.item]) items).1,
        (SourceItem.taken (loaded ++ [item.item]) items).2) := by
  have hrefusal : item.item.refusal? loaded = none := by
    cases hitem : item.item with
    | label name =>
      rw [hitem] at hfresh
      rw [Item.refusal?, if_neg (hfresh name rfl), if_pos hsize]
    | reference name => rw [Item.refusal?, if_pos hsize]
    | _ => rfl
  rw [SourceItem.taken, hrefusal]

/-- The code of the items that are taken fits in 32 bits. -/
def Chunk.Fits (loaded : List Item) (chunk : Chunk) : Prop :=
  Image.size (loaded ++ (SourceItem.taken loaded chunk.items).1.map fun entry => entry.item) < 4294967296

/-- Behind a phrase the reader meets the errors of the tokens that follow, with one more item loaded. -/
private theorem exists_item_error? {label? : Option String} {front back : List PlacedToken}
    (hfront : Phrase front label?) (hdefined : ∀ name, defined name ↔ name ∈ Image.definitions loaded)
    (hfresh : ∀ name, label? = some name → ¬defined name) (hshape : ∀ placed ∈ front, placed.token.HasShape)
    (hsize : (Chunk.ofTokens (front ++ back)).Fits loaded) :
    ∃ item : Item, (∀ name, (defined name ∨ label? = some name) ↔ name ∈ Image.definitions (loaded ++ [item])) ∧
      (Chunk.ofTokens back).Fits (loaded ++ [item]) ∧
      (Chunk.ofTokens (front ++ back)).error? loaded = (Chunk.ofTokens back).error? (loaded ++ [item]) := by
  obtain ⟨item, hlabel, hread⟩ := hfront.exists_item hshape
  have hloaded : Image.size loaded < 4294967296 := by
    rw [Chunk.Fits, Image.size_append] at hsize
    omega
  have hnew : ∀ name, item.item.definition? = some name → name ∉ Image.definitions loaded := by
    intro name hname
    rw [← hdefined]
    exact hfresh name (hlabel ▸ hname)
  have htaken := taken_cons hnew hloaded (Chunk.ofTokens back).items
  refine ⟨item.item, ?_, ?_, ?_⟩
  · intro name
    rw [Image.definitions_append, Image.definitions_singleton, List.mem_append, hdefined, hlabel, Option.mem_toList]
  · rw [Chunk.Fits, hread] at hsize
    dsimp only at hsize
    rw [htaken, List.map_cons, List.append_cons] at hsize
    exact hsize
  · rw [hread, Chunk.error?, htaken]
    rfl

theorem Sentence.error?_eq_none (h : Sentence defined tokens)
    (hdefined : ∀ name, defined name ↔ name ∈ Image.definitions loaded)
    (htokens : ∀ placed ∈ tokens, placed.token ≠ .endOfInput ∧ placed.token.HasShape)
    (hsize : (Chunk.ofTokens tokens).Fits loaded) : (Chunk.ofTokens tokens).error? loaded = none := by
  induction h generalizing loaded with
  | nil => rfl
  | cons hfront hfresh hback ih =>
    rw [List.forall_mem_append] at htokens
    obtain ⟨item, hdefinedNext, hsizeNext, herror⟩ :=
      exists_item_error? hfront hdefined hfresh (fun placed hplaced => (htokens.1 placed hplaced).2) hsize
    rw [herror]
    exact ih hdefinedNext htokens.2 hsizeNext

theorem Broken.error?_eq_some (h : Broken defined tokens error)
    (hdefined : ∀ name, defined name ↔ name ∈ Image.definitions loaded)
    (htokens : ∀ placed ∈ tokens, placed.token ≠ .endOfInput ∧ placed.token.HasShape)
    (hsize : (Chunk.ofTokens tokens).Fits loaded) : (Chunk.ofTokens tokens).error? loaded = some error := by
  induction h generalizing loaded with
  | here hflaw => exact hflaw.error?_eq (fun name => (hdefined name).1) htokens
  | later hfront hfresh hback ih =>
    rw [List.forall_mem_append] at htokens
    obtain ⟨item, hdefinedNext, hsizeNext, herror⟩ :=
      exists_item_error? hfront hdefined hfresh (fun placed hplaced => (htokens.1 placed hplaced).2) hsize
    rw [herror]
    exact ih hdefinedNext htokens.2 hsizeNext

/-- All tokens can be taken exactly if they are a sentence. -/
theorem error?_eq_none_iff (hdefined : ∀ name, defined name ↔ name ∈ Image.definitions loaded)
    (htokens : ∀ placed ∈ tokens, placed.token ≠ .endOfInput ∧ placed.token.HasShape)
    (hsize : (Chunk.ofTokens tokens).Fits loaded) :
    (Chunk.ofTokens tokens).error? loaded = none ↔ Sentence defined tokens := by
  constructor
  · intro hnone
    rcases sentence_or_broken defined tokens with hsentence | ⟨cause, hbroken⟩
    · exact hsentence
    · rw [hbroken.error?_eq_some hdefined htokens hsize] at hnone
      cases hnone
  · intro hsentence
    exact hsentence.error?_eq_none hdefined htokens hsize

/-- The error of tokens is that of their first flaw. -/
theorem error?_eq_some_iff (hdefined : ∀ name, defined name ↔ name ∈ Image.definitions loaded)
    (htokens : ∀ placed ∈ tokens, placed.token ≠ .endOfInput ∧ placed.token.HasShape)
    (hsize : (Chunk.ofTokens tokens).Fits loaded) (error : AssemblyError) :
    (Chunk.ofTokens tokens).error? loaded = some error ↔ Broken defined tokens error := by
  constructor
  · intro hsome
    rcases sentence_or_broken defined tokens with hsentence | ⟨cause, hbroken⟩
    · rw [hsentence.error?_eq_none hdefined htokens hsize] at hsome
      cases hsome
    · rw [hbroken.error?_eq_some hdefined htokens hsize] at hsome
      cases hsome
      exact hbroken
  · intro hbroken
    exact hbroken.error?_eq_some hdefined htokens hsize

/-! ### Loading a source -/

/-- An assembly takes a source exactly if its tokens are complete items one after the other whose labels are new, and
any other source fails with the error of its first flaw. -/
theorem load_iff_sentence {base : Int} {requests : List Request} {source : String}
    (hrunning : ((Assembly.empty base).afterRequests requests).halted = false)
    (hlines : source.toList.count '\n' + 1 < 4294967296)
    (hsize : (((Assembly.empty base).afterRequests requests).after (.load source)).code.size < 4294967296) :
    let assembly := (Assembly.empty base).afterRequests requests
    let defined (name : String) : Prop := (assembly.label? name).isSome
    let tokens := (Cursor.start source).stream .plain
    ((∃ last, (load source).run assembly = .ok () last) ↔ Sentence defined tokens) ∧
      ∀ error, (∃ last, (load source).run assembly = .error error last) ↔ Broken defined tokens error := by
  intro assembly defined tokens
  obtain ⟨⟨-, -, linked, waiting, -, hholds, -⟩, -⟩ := (Assembly.follows_empty base).afterRequests requests
  obtain ⟨last, hrun, hlast, -, -, -⟩ := run_load_of_holds hholds hrunning source
  have hrequest : (Request.load source).action.run assembly = ended _ .done last := run_bind_ended hrun rfl
  rw [Chunk.ofSource_eq_ofTokens hlines] at hrun hlast
  have hdefined : ∀ name, defined name ↔ name ∈ Image.definitions (plain (linked ++ waiting)) :=
    hholds.isSome_label?_iff
  have htokens : ∀ placed ∈ tokens, placed.token ≠ .endOfInput ∧ placed.token.HasShape :=
    fun placed hplaced => Cursor.hasShape_of_mem_stream hplaced
  have hfits : (Chunk.ofTokens tokens).Fits (plain (linked ++ waiting)) := by
    rw [(Assembly.answer_of_run hrequest).2, hlast.size_code, LoadedItem.plain_append_append,
      LoadedItem.plain_map] at hsize
    exact hsize
  -- How the load ends is decided by the error that the tokens meet, and by nothing else.
  rw [hrun]
  refine ⟨?_, fun error => ?_⟩
  · rw [← error?_eq_none_iff hdefined htokens hfits]
    cases (Chunk.ofTokens tokens).error? (plain (linked ++ waiting)) <;> simp
  · rw [← error?_eq_some_iff hdefined htokens hfits]
    cases (Chunk.ofTokens tokens).error? (plain (linked ++ waiting)) <;> simp

/-- The name of a label may spell a directive, but a label that an earlier source defines is a flaw. -/
theorem load_iff_sentence_label_defined_before :
    let assembly := (Assembly.empty 0).afterRequests [.load "label start noop"]
    assembly.halted = false ∧
      (assembly.after (.load "Int label # a name\nlabel start")).code.size < 4294967296 ∧
      ∃ last, (load "Int label # a name\nlabel start").run assembly =
        .error ⟨.duplicateLabel "start", some 2⟩ last := by
  intro assembly
  have hrunning : assembly.halted = false := by decide +kernel
  have hsize : (assembly.after (.load "Int label # a name\nlabel start")).code.size < 4294967296 := by decide +kernel
  have htokens : (Cursor.start "Int label # a name\nlabel start").stream .plain =
      [⟨.identifier "Int", 0⟩, ⟨.identifier "label", 0⟩] ++ [⟨.identifier "label", 1⟩, ⟨.identifier "start", 1⟩] := by
    decide +kernel
  have hstart : (assembly.label? "start").isSome := by decide +kernel
  refine ⟨hrunning, hsize, ((load_iff_sentence hrunning (by decide +kernel) hsize).2 _).2 ?_⟩
  rw [htokens]
  exact .later (.reference (by decide : Directive.int.WrittenAs "Int")) nofun
    (.here (.label (by decide : Directive.label.WrittenAs "label") (Or.inl hstart)))

end RegisterMachine
