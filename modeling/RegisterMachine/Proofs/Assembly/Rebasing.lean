import Mathlib.Control.Monad.Basic
import RegisterMachine.Proofs.Assembly.History
import RegisterMachine.Proofs.Assembly.Program

/-!
# Other bases

The base of an assembly goes nowhere but into the words that references hold.  Whatever is asked of two assemblies that
differ in their bases, they load the same chunks and have the same labels, and the programs they emit differ in these
words only, each of them by the difference of the bases (`afterRequests_rebase`).  The largest offset that is referred
to decides whether an assembly can be linked at its base (`run_resolve_of_defined`).
-/

namespace RegisterMachine

open Assembling
open LoadedItem (plain)

/-! ### Words in programs -/

/-- The word that four bytes of a program hold from an offset on. -/
def wordAt? (program : Array UInt8) (offset : Nat) : Option Word := do
  return Word.ofBytes (← program[offset]?) (← program[offset + 1]?) (← program[offset + 2]?) (← program[offset + 3]?)

theorem wordAt?_of_take_drop {program : Array UInt8} {offset : Nat} {word : Word}
    (h : (program.toList.drop offset).take 4 = Word.toBytes word) : wordAt? program offset = some word := by
  have hbyte (i : Nat) (hi : i < 4) : program[offset + i]? = (Word.toBytes word)[i]? := by
    rw [← h, List.getElem?_take_of_lt hi, List.getElem?_drop, Array.getElem?_toList]
  have hword : Word.toBytes word = [_, _, _, _] := rfl
  have h₀ := hbyte 0 (by omega)
  have h₁ := hbyte 1 (by omega)
  have h₂ := hbyte 2 (by omega)
  have h₃ := hbyte 3 (by omega)
  rw [hword] at h₀ h₁ h₂ h₃
  rw [Nat.add_zero] at h₀
  unfold wordAt?
  rw [h₀, h₁, h₂, h₃]
  exact congrArg some (Word.ofBytes_of_toBytes_eq hword)

namespace Image

/-- The offset is in none of the words that the references of the items hold. -/
def OutsideReferences (items : List Item) (i : Nat) : Prop :=
  ∀ front name back, items = front ++ .reference name :: back → ¬(size front ≤ i ∧ i < size front + 4)

/-- Outside the words of references an image does not depend on addresses. -/
theorem getElem?_flatMap_image (address address' : String → Int) {items : List Item} {i : Nat}
    (h : OutsideReferences items i) :
    (items.flatMap (Item.image address))[i]? = (items.flatMap (Item.image address'))[i]? := by
  induction items generalizing i with
  | nil => rfl
  | cons item items ih =>
    rw [List.flatMap_cons, List.flatMap_cons]
    by_cases hitem : i < item.size
    · rw [List.getElem?_append_left (by rwa [Item.length_image]),
        List.getElem?_append_left (by rwa [Item.length_image])]
      cases hreference : item.reference? with
      | none => rw [Item.image_of_reference?_eq_none hreference, Item.image_of_reference?_eq_none hreference]
      | some name =>
        rw [Item.eq_reference hreference] at hitem h
        exact absurd ⟨Nat.zero_le i, by rwa [size, Nat.zero_add]⟩ (h [] name items rfl)
    · have hle : item.size ≤ i := Nat.le_of_not_lt hitem
      rw [List.getElem?_append_right (by rwa [Item.length_image]),
        List.getElem?_append_right (by rwa [Item.length_image]), Item.length_image, Item.length_image]
      apply ih
      intro front name back hsplit hinside
      refine h (item :: front) name back (by rw [hsplit, List.cons_append]) ?_
      rw [size]
      omega

/-- The word of a reference is the address of its label, if that fits in 32 bits. -/
theorem wordAt?_bytes {base : Int} {items front back : List Item} {name : String}
    (hsplit : items = front ++ .reference name :: back) :
    wordAt? (bytes base items).toArray (size front) = some (.ofInt (address base items name)) := by
  apply wordAt?_of_take_drop
  have hslice := take_drop_flatMap_image (address base items) front back (.reference name)
  rw [← hsplit] at hslice
  exact hslice

end Image

/-! ### Histories that did not halt -/

/-- The items of a history that did not halt are those of all its chunks. -/
theorem History.plain_items_foldl_load {history : History} {sources : List String}
    (h : (sources.foldl load history).halted = false) :
    history.halted = false ∧
      plain (sources.foldl load history).items = plain history.items ++ Chunk.joined sources := by
  induction sources generalizing history with
  | nil => exact ⟨h, (List.append_nil _).symm⟩
  | cons source sources ih =>
    obtain ⟨hnext, hitems⟩ := ih h
    cases hrunning : history.halted with
    | true =>
      rw [load, if_pos hrunning, hrunning] at hnext
      cases hnext
    | false =>
      have hhalted : ¬history.halted = true := by simp [hrunning]
      rw [load, if_neg hhalted] at hnext
      have herror := Option.isSome_eq_false_iff.1 hnext
      rw [Option.isNone_iff_eq_none] at herror
      have htaken := SourceItem.taken_eq_self (Option.or_eq_none_iff.1 herror).1
      refine ⟨rfl, ?_⟩
      rw [List.foldl_cons, hitems, load, if_neg hhalted]
      dsimp only
      rw [htaken, LoadedItem.plain_append, LoadedItem.plain_map, Chunk.joined_cons, List.append_assoc, Chunk.plain]

theorem History.running_of_answer_emit {base : Int} {history : History} {program : Array UInt8}
    (h : history.answer base .emit = .ok (.program program)) : history.halted = false := by
  cases hhalted : history.halted with
  | false => rfl
  | true =>
    unfold answer unlinkable? at h
    rw [hhalted] at h
    cases h

/-- A program that a history answers with is the image of all its chunks, whose references are linked. -/
theorem History.eq_of_answer_emit {base : Int} {sources : List String} {program : Array UInt8}
    (h : (sources.foldl load {}).answer base .emit = .ok (.program program)) :
    program = (Image.bytes base (Chunk.joined sources)).toArray ∧
      ∀ name ∈ Image.references (Chunk.joined sources), ∃ offset,
        Image.offset? name (Chunk.joined sources) = some offset ∧
          -2147483648 ≤ base + offset ∧ base + offset ≤ 2147483647 := by
  have hrunning := running_of_answer_emit h
  have hitems := (plain_items_foldl_load hrunning).2
  rw [show plain ({} : History).items = [] from rfl, List.nil_append] at hitems
  unfold answer unlinkable? at h
  rw [hrunning, if_neg Bool.false_ne_true, hitems] at h
  cases hlinkable : LoadedItem.unlinkable? base [] (sources.foldl load {}).items with
  | some error =>
    rw [hlinkable] at h
    cases h
  | none =>
    rw [hlinkable] at h
    cases h
    refine ⟨rfl, fun name hname => ?_⟩
    rw [LoadedItem.unlinkable?_eq_none_iff, List.nil_append, hitems] at hlinkable
    obtain ⟨offset, hoffset, -, hbounds⟩ := hlinkable name hname
    exact ⟨offset, hoffset, hbounds⟩

/-- Loading does not look at the base. -/
theorem History.answer_load_eq (base base' : Int) (history : History) (source : String) :
    history.answer base (.load source) = history.answer base' (.load source) := rfl

/-! ### What cannot be linked at a base -/

section Limit

variable {assembly : Assembly} {linked waiting : List LoadedItem}

/-- A reference to a label that is defined fails exactly if its address is too large. -/
private theorem error?_of_label? (h : assembly.Holds linked waiting) (hbase : -2147483648 ≤ assembly.base)
    (hsize : assembly.code.size < 2147483648) {reference : Reference} {offset : Nat}
    (hoffset : assembly.label? reference.name = some offset) :
    reference.error? assembly.base (plain (linked ++ waiting)) =
      if 2147483647 < assembly.base + offset then some ⟨.addressOverflow, none⟩ else none := by
  rw [Assembly.label?, h.labels_eq] at hoffset
  have hle := Image.offset?_le_size hoffset
  rw [← h.size_code] at hle
  rw [Reference.error?, hoffset]
  dsimp only
  by_cases hlarge : 2147483647 < assembly.base + offset
  · rw [if_pos hlarge, if_neg (by omega)]
  · rw [if_neg hlarge, if_pos (by omega)]

/-- Where the labels of all pending references are defined, linking fails exactly if some address is too large, and
with no other error. -/
theorem run_resolve_of_defined (h : assembly.Holds linked waiting) (hrunning : assembly.halted = false)
    (hbase : -2147483648 ≤ assembly.base) (hsize : assembly.code.size < 2147483648)
    (hdefined : ∀ reference ∈ assembly.pending.toList, (assembly.label? reference.name).isSome) :
    ((∃ error last, resolve.run assembly = .error error last) ↔
      ∃ reference ∈ assembly.pending.toList, ∃ offset, assembly.label? reference.name = some offset ∧
        2147483647 < assembly.base + offset) ∧
    ∀ error last, resolve.run assembly = .error error last → error = ⟨.addressOverflow, none⟩ := by
  have hfirst : LoadedItem.unlinkable? assembly.base linked waiting =
      assembly.pending.toList.findSome? (Reference.error? assembly.base (plain (linked ++ waiting))) := by
    rw [h.pending_eq]
    rfl
  cases hunlinkable : LoadedItem.unlinkable? assembly.base linked waiting with
  | none =>
    obtain ⟨code, -, hrun⟩ := run_resolve_of_linkable h hrunning hunlinkable
    rw [hfirst, List.findSome?_eq_none_iff] at hunlinkable
    rw [hrun]
    refine ⟨iff_of_false ?_ ?_, ?_⟩
    · rintro ⟨error, last, hfails⟩
      cases hfails
    · rintro ⟨reference, hreference, offset, hoffset, hlarge⟩
      have hnone := hunlinkable reference hreference
      rw [error?_of_label? h hbase hsize hoffset, if_pos hlarge] at hnone
      cases hnone
    · intro error last hfails
      cases hfails
  | some error =>
    have hrun := run_resolve_of_unlinkable h hrunning hunlinkable
    rw [hfirst] at hunlinkable
    obtain ⟨reference, hreference, herror⟩ := List.exists_of_findSome?_eq_some hunlinkable
    obtain ⟨offset, hoffset⟩ := Option.isSome_iff_exists.1 (hdefined reference hreference)
    rw [error?_of_label? h hbase hsize hoffset] at herror
    split at herror
    · rename_i hlarge
      cases herror
      rw [hrun]
      refine ⟨iff_of_true ⟨_, _, rfl⟩ ⟨reference, hreference, offset, hoffset, hlarge⟩, ?_⟩
      rintro error last ⟨⟩
      rfl
    · cases herror

end Limit

/-- Some number in a list is above a bound exactly if the largest one is. -/
private theorem exists_max?_iff {numbers : List Nat} {base bound : Int} :
    (∃ largest, numbers.max? = some largest ∧ bound < base + largest) ↔ ∃ n ∈ numbers, bound < base + n := by
  constructor
  · rintro ⟨largest, hlargest, hbound⟩
    exact ⟨largest, List.max?_mem hlargest, hbound⟩
  · rintro ⟨n, hn, hbound⟩
    cases hlargest : numbers.max? with
    | none =>
      rw [List.max?_eq_none_iff] at hlargest
      rw [hlargest] at hn
      cases hn
    | some largest =>
      have hle := (List.max?_eq_some_iff.1 hlargest).2 n hn
      exact ⟨largest, rfl, by omega⟩

/-! ### Two bases -/

/-- Whatever is asked of two assemblies with different bases, also where only one of them can be linked: they take the
same chunks, are as long and have the same labels.  Where both emit a program, the programs differ at most in the words
that references hold, and each of these by the difference of the bases.  An assembly whose references have labels
cannot be linked exactly if some reference waits and the largest offset that is waited for is too large for the base,
and then it says so. -/
theorem afterRequests_rebase (base base' : Int32) {requests : List Request}
    (hsize : ((Assembly.empty base.toInt).afterRequests requests).code.size < 2147483648) :
    let assembly := (Assembly.empty base.toInt).afterRequests requests
    let other := (Assembly.empty base'.toInt).afterRequests requests
    let items := Chunk.joined (Request.sources requests)
    (∀ source, assembly.answer (.load source) = other.answer (.load source)) ∧
    assembly.code.size = other.code.size ∧ assembly.chunkCount = other.chunkCount ∧
    (∀ name, assembly.label? name = other.label? name) ∧ assembly.labelList = other.labelList ∧
    (∀ program program', assembly.answer .emit = .ok (.program program) →
      other.answer .emit = .ok (.program program') →
      (∀ i, Image.OutsideReferences items i → program[i]? = program'[i]?) ∧
      ∀ front name back, items = front ++ Item.reference name :: back → ∃ word word',
        wordAt? program (Image.size front) = some word ∧ wordAt? program' (Image.size front) = some word' ∧
          word'.toInt - word.toInt = base'.toInt - base.toInt) ∧
    (assembly.halted = false →
      (∀ reference ∈ assembly.pending.toList, (assembly.label? reference.name).isSome) →
      ((∃ error last, resolve.run assembly = .error error last) ↔ ∃ largest,
        (assembly.pending.toList.filterMap fun reference => assembly.label? reference.name).max? = some largest ∧
          2147483647 < base.toInt + largest) ∧
      ∀ error last, resolve.run assembly = .error error last → error = ⟨.addressOverflow, none⟩) := by
  intro assembly other items
  obtain ⟨hassembly, hbase⟩ := (Assembly.follows_empty base.toInt).afterRequests requests
  obtain ⟨hother, hbaseOther⟩ := (Assembly.follows_empty base'.toInt).afterRequests requests
  change assembly.base = base.toInt at hbase
  change other.base = base'.toInt at hbaseOther
  have hlabels (name : String) : assembly.label? name = other.label? name :=
    (hassembly.label?_eq name).trans (hother.label?_eq name).symm
  refine ⟨?_, hassembly.size_code.trans hother.size_code.symm, ?_, hlabels,
    Assembly.labelList_eq_of_label?_eq hlabels, ?_, ?_⟩
  · intro source
    rw [(hassembly.perform (.load source)).1, (hother.perform (.load source)).1]
    exact History.answer_load_eq _ _ _ source
  · rw [Assembly.chunkCount, Assembly.chunkCount, hassembly.1, hother.1]
  · intro program program' hemit hemit'
    rw [(hassembly.perform .emit).1, hbase] at hemit
    rw [(hother.perform .emit).1, hbaseOther] at hemit'
    obtain ⟨rfl, hlinked⟩ := History.eq_of_answer_emit hemit
    obtain ⟨rfl, hlinked'⟩ := History.eq_of_answer_emit hemit'
    refine ⟨fun i hi => ?_, fun front name back hsplit => ?_⟩
    · rw [List.getElem?_toArray, List.getElem?_toArray]
      exact Image.getElem?_flatMap_image _ _ hi
    · have hname : name ∈ Image.references items := by
        rw [hsplit, Image.references_append, Image.references_cons]
        simp [Item.reference?]
      obtain ⟨offset, hoffset, hbounds⟩ := hlinked name hname
      obtain ⟨offset', hoffset', hbounds'⟩ := hlinked' name hname
      rw [hoffset] at hoffset'
      cases hoffset'
      refine ⟨_, _, Image.wordAt?_bytes hsplit, Image.wordAt?_bytes hsplit, ?_⟩
      rw [Image.address, Image.address, hoffset, Option.getD_some, Int32.toInt_ofInt_of_le (by omega) (by omega),
        Int32.toInt_ofInt_of_le (by omega) (by omega)]
      omega
  · intro hrunning hdefined
    obtain ⟨-, -, linked, waiting, -, hholds, -⟩ := hassembly
    have hlow : -2147483648 ≤ assembly.base := hbase ▸ base.le_toInt
    obtain ⟨hfails, herror⟩ := run_resolve_of_defined hholds hrunning hlow hsize hdefined
    refine ⟨?_, herror⟩
    rw [exists_max?_iff, hfails, hbase]
    simp only [List.mem_filterMap]
    constructor
    · rintro ⟨reference, hreference, offset, hoffset, hlarge⟩
      exact ⟨offset, ⟨reference, hreference, hoffset⟩, hlarge⟩
    · rintro ⟨offset, ⟨reference, hreference, hoffset⟩, hlarge⟩
      exact ⟨reference, hreference, offset, hoffset, hlarge⟩

/-- A reference to the offset 1 is linked at the base -3 and at the last base that has room for it, but not at the one
behind that. -/
theorem afterRequests_rebase_last_base :
    let requests : List Request := [.load "noop label near", .load "int near hex FF", .resolve]
    let assembly := (Assembly.empty (-3 : Int32).toInt).afterRequests requests
    let other := (Assembly.empty (2147483646 : Int32).toInt).afterRequests requests
    let behind := (Assembly.empty (2147483647 : Int32).toInt).afterRequests requests
    assembly.code.size < 2147483648 ∧ behind.code.size < 2147483648 ∧ assembly.labelList = other.labelList ∧
      assembly.answer .emit = .ok (.program #[0, 254, 255, 255, 255, 255]) ∧
      other.answer .emit = .ok (.program #[0, 255, 255, 255, 127, 255]) ∧
      (∃ word word', wordAt? #[0, 254, 255, 255, 255, 255] 1 = some word ∧
        wordAt? #[0, 255, 255, 255, 127, 255] 1 = some word' ∧ word'.toInt - word.toInt = 2147483649) ∧
      behind.halted = false ∧ (∀ reference ∈ behind.pending.toList, (behind.label? reference.name).isSome) ∧
      behind.labelList = assembly.labelList ∧
      ∃ error last, resolve.run behind = .error error last ∧ error = ⟨.addressOverflow, none⟩ := by
  intro requests assembly other behind
  have hsize : assembly.code.size < 2147483648 := by decide +kernel
  have hsizeBehind : behind.code.size < 2147483648 := by decide +kernel
  have hemit : assembly.answer .emit = .ok (.program #[0, 254, 255, 255, 255, 255]) := by decide +kernel
  have hemitOther : other.answer .emit = .ok (.program #[0, 255, 255, 255, 127, 255]) := by decide +kernel
  have hrunning : behind.halted = false := by decide +kernel
  have hdefined : ∀ reference ∈ behind.pending.toList, (behind.label? reference.name).isSome := by decide +kernel
  have hlargest : (behind.pending.toList.filterMap fun reference => behind.label? reference.name).max? = some 1 := by
    decide +kernel
  have hitems : Chunk.joined (Request.sources requests) =
      [.opcode .noop, .label "near"] ++ .reference "near" :: [.bytes [255]] := by decide +kernel
  obtain ⟨-, -, -, -, hlabels, hwords, -⟩ := afterRequests_rebase (-3) 2147483646 hsize
  obtain ⟨-, -, -, -, hlabelsBehind, -, hlimit⟩ := afterRequests_rebase 2147483647 (-3) hsizeBehind
  obtain ⟨hfails, hcause⟩ := hlimit hrunning hdefined
  obtain ⟨error, last, hrun⟩ := hfails.2 ⟨1, hlargest, by decide⟩
  exact ⟨hsize, hsizeBehind, hlabels, hemit, hemitOther, (hwords _ _ hemit hemitOther).2 _ _ _ hitems, hrunning,
    hdefined, hlabelsBehind, error, last, hrun, hcause error last hrun⟩

end RegisterMachine
