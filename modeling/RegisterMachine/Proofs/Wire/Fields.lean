import Mathlib.Data.List.Forall2
import RegisterMachine.Proofs.Wire.Taking

/-!
# Fields

What is on the wire is one field after the other, each a number or a single byte.  A decoder that takes a value has
read spellings of all its fields (`ReadsAs`), which need not be the ones that are written: these are no longer
(`length_flatMap_encode_le`), and they are the same only if each of the spellings is the shortest one
(`flatMap_encode_eq_iff`).
-/

namespace RegisterMachine.Wire

/-- A number of 32 bits or of 64 bits, or a byte that is written as it is. -/
inductive Field where
  | short (value : Nat)
  | long (value : Nat)
  | byte (value : UInt8)
deriving DecidableEq, Repr

namespace Field

def encode : Field → List UInt8
  | short value => varint value
  | long value => varint value
  | byte value => [value]

/-- The bytes that may stand for the field: a number of 32 bits has at most five groups and one of 64 bits at most ten,
and each of them stands for a number within its bits. -/
def Spelled : Field → List UInt8 → Prop
  | short value, bytes => Grouped bytes value ∧ bytes.length ≤ 5 ∧ value < 4294967296
  | long value, bytes => Grouped bytes value ∧ bytes.length ≤ 10 ∧ value < 18446744073709551616
  | byte value, bytes => bytes = [value]

theorem Spelled.length_encode_le {field : Field} {bytes : List UInt8} (h : field.Spelled bytes) :
    field.encode.length ≤ bytes.length := by
  cases field with
  | short value => exact h.1.length_varint_le
  | long value => exact h.1.length_varint_le
  | byte value => exact Nat.le_of_eq (congrArg List.length h).symm

theorem Spelled.encode_eq_iff {field : Field} {bytes : List UInt8} (h : field.Spelled bytes) :
    field.encode = bytes ↔ Shortest bytes := by
  cases field with
  | short value => exact h.1.eq_varint_iff
  | long value => exact h.1.eq_varint_iff
  | byte value =>
    refine iff_of_true h.symm fun n other hn hother => ?_
    rw [show bytes = [value] from h]
    exact hother.length_pos

end Field

/-! ### Fields one after the other -/

/-- The pieces spell the fields, one after the other. -/
abbrev Spelling : List Field → List (List UInt8) → Prop := List.Forall₂ Field.Spelled

variable {fields : List Field} {pieces : List (List UInt8)}

theorem exists_spelled_of_mem (h : Spelling fields pieces) {field : Field} (hmem : field ∈ fields) :
    ∃ piece ∈ pieces, field.Spelled piece := by
  induction h with
  | nil => cases hmem
  | cons hfield h ih =>
    rcases List.mem_cons.1 hmem with rfl | hlater
    · exact ⟨_, List.mem_cons_self, hfield⟩
    · obtain ⟨piece, hpiece, hspelled⟩ := ih hlater
      exact ⟨piece, List.mem_cons_of_mem _ hpiece, hspelled⟩

theorem length_flatMap_encode_le (h : Spelling fields pieces) :
    (fields.flatMap Field.encode).length ≤ pieces.flatten.length := by
  induction h with
  | nil => exact Nat.le_refl 0
  | cons hfield h ih =>
    rw [List.flatMap_cons, List.flatten_cons, List.length_append, List.length_append]
    exact Nat.add_le_add hfield.length_encode_le ih

/-- What is written for the fields together has the length of the pieces only if that holds of each field. -/
theorem flatMap_encode_eq_iff (h : Spelling fields pieces) :
    fields.flatMap Field.encode = pieces.flatten ↔ ∀ piece ∈ pieces, Shortest piece := by
  induction h with
  | nil => simp
  | @cons field piece fields pieces hfield h ih =>
    rw [List.flatMap_cons, List.flatten_cons, List.forall_mem_cons, ← ih, ← hfield.encode_eq_iff]
    constructor
    · intro heq
      have hlength := congrArg List.length heq
      rw [List.length_append, List.length_append] at hlength
      have hfirst := hfield.length_encode_le
      have hothers := length_flatMap_encode_le h
      exact List.append_inj heq (by omega)
    · rintro ⟨hfirst, hothers⟩
      rw [hfirst, hothers]

/-! ### Decoders -/

variable {α β : Type}

/-- The decoder takes the value from the front of the bytes, where its fields are spelled. -/
def ReadsAs (take : Decoder α) (bytes : List UInt8) (value : α) (fields : List Field) (rest : List UInt8) : Prop :=
  ∃ pieces, Spelling fields pieces ∧ bytes = pieces.flatten ++ rest ∧ Takes take pieces.flatten value

namespace ReadsAs

variable {take : Decoder α} {next : α → Decoder β} {bytes middle rest : List UInt8} {value : α} {result : β}
  {fields others : List Field}

theorem pure (value : α) (bytes : List UInt8) : ReadsAs (Pure.pure value) bytes value [] bytes :=
  ⟨[], .nil, rfl, .pure value⟩

theorem bind (h : ReadsAs take bytes value fields middle) (hnext : ReadsAs (next value) middle result others rest) :
    ReadsAs (take >>= next) bytes result (fields ++ others) rest := by
  obtain ⟨pieces, hpieces, rfl, htakes⟩ := h
  obtain ⟨more, hmore, rfl, htakesMore⟩ := hnext
  refine ⟨pieces ++ more, List.rel_append hpieces hmore, ?_, ?_⟩
  · rw [List.flatten_append, List.append_assoc]
  · rw [List.flatten_append]
    exact htakes.bind htakesMore

/-- What is made of the value may have no fields of its own. -/
theorem bind_of_nil (h : ReadsAs take bytes value fields middle) (hnext : ReadsAs (next value) middle result [] rest) :
    ReadsAs (take >>= next) bytes result fields rest := by
  have hbind := h.bind hnext
  rwa [List.append_nil] at hbind

theorem bind_pure (h : ReadsAs take bytes value fields rest) (f : α → β) :
    ReadsAs (take >>= fun value => Pure.pure (f value)) bytes (f value) fields rest :=
  h.bind_of_nil (.pure (f value) rest)

end ReadsAs

theorem exists_of_run_bind {take : Decoder α} {next : α → Decoder β} {bytes rest : List UInt8} {result : β}
    (h : (take >>= next).run bytes = some (result, rest)) :
    ∃ value middle, take.run bytes = some (value, middle) ∧ (next value).run middle = some (result, rest) := by
  rw [StateT.run_bind] at h
  obtain ⟨⟨value, middle⟩, htake, hnext⟩ := Option.bind_eq_some_iff.1 h
  exact ⟨value, middle, htake, hnext⟩

/-! ### Numbers -/

variable {bytes rest : List UInt8}

theorem readsAs_takeByte {value : UInt8} (h : takeByte.run bytes = some (value, rest)) :
    ReadsAs takeByte bytes value [.byte value] rest := by
  cases bytes with
  | nil => cases h
  | cons byte bytes =>
    cases h
    exact ⟨[[value]], .cons rfl .nil, rfl, takes_takeByte value⟩

/-- What is made of a number is read where the number is spelled. -/
private theorem readsAs_number {top groups : Nat} {make : Nat → α} (field : α → Field)
    (hfield : ∀ n used, Grouped used n → used.length ≤ groups + 1 → n < varintBound top groups →
      (field (make n)).Spelled used) {value : α}
    (h : (make <$> takeVarint top (groups + 1)).run bytes = some (value, rest)) :
    ReadsAs (make <$> takeVarint top (groups + 1)) bytes value [field value] rest := by
  rw [map_eq_pure_bind] at h
  obtain ⟨n, middle, hrun, hpure⟩ := exists_of_run_bind h
  cases hpure
  obtain ⟨used, rfl, hused, hlength, hlt⟩ := exists_grouped_of_run hrun
  refine ⟨[used], .cons (hfield n used hused hlength hlt) .nil, ?_, ?_⟩
  · rw [List.flatten_singleton]
  · rw [List.flatten_singleton]
    exact (takes_of_grouped hused hlength hlt).map make

theorem readsAs_takeUInt32 {value : UInt32} (h : takeUInt32.run bytes = some (value, rest)) :
    ReadsAs takeUInt32 bytes value [.short value.toNat] rest := by
  refine readsAs_number (fun value => .short value.toNat) (fun n used hused hlength hlt => ?_) h
  have hbound : n < 4294967296 := hlt
  rw [UInt32.toNat_ofNat_of_lt' hbound]
  exact ⟨hused, hlength, hbound⟩

theorem readsAs_takeUInt64 {value : UInt64} (h : takeUInt64.run bytes = some (value, rest)) :
    ReadsAs takeUInt64 bytes value [.long value.toNat] rest := by
  refine readsAs_number (fun value => .long value.toNat) (fun n used hused hlength hlt => ?_) h
  have hbound : n < 18446744073709551616 := hlt
  rw [UInt64.toNat_ofNat_of_lt' hbound]
  exact ⟨hused, hlength, hbound⟩

/-- Unfolding stays within 32 bits, so nothing is cut off. -/
private theorem toInt_ofInt_unzigzag {n : Nat} (h : n < 4294967296) :
    (Int32.ofInt (unzigzag n)).toInt = unzigzag n := by
  unfold unzigzag
  split
  · rw [Int.ofNat_eq_natCast]
    apply Int32.toInt_ofInt_of_le <;> omega
  · apply Int32.toInt_ofInt_of_le <;> omega

theorem readsAs_takeInt32 {value : Int32} (h : takeInt32.run bytes = some (value, rest)) :
    ReadsAs takeInt32 bytes value [.short (zigzag value.toInt)] rest := by
  refine readsAs_number (fun value => .short (zigzag value.toInt)) (fun n used hused hlength hlt => ?_) h
  have hbound : n < 4294967296 := hlt
  rw [toInt_ofInt_unzigzag hbound, zigzag_unzigzag]
  exact ⟨hused, hlength, hbound⟩

/-! ### Lists -/

/-- The fields of a list are the number of its values and then those of the values. -/
def listFields (fieldsOf : α → List Field) (values : List α) : List Field :=
  .long values.length :: values.flatMap fieldsOf

variable {take : Decoder α} {encode : α → List UInt8} {fieldsOf : α → List Field} {values : List α}

theorem encodeList_eq (h : ∀ value, encode value = (fieldsOf value).flatMap Field.encode) :
    encodeList encode values = (listFields fieldsOf values).flatMap Field.encode := by
  rw [encodeList, listFields, List.flatMap_cons, List.flatMap_assoc, funext h]
  rfl

theorem readsAs_takeMany
    (h : ∀ bytes value rest, take.run bytes = some (value, rest) → ReadsAs take bytes value (fieldsOf value) rest)
    {count : Nat} (hrun : (takeMany take count).run bytes = some (values, rest)) :
    values.length = count ∧ ReadsAs (takeMany take count) bytes values (values.flatMap fieldsOf) rest := by
  induction count generalizing bytes values with
  | zero =>
    cases hrun
    exact ⟨rfl, .pure [] _⟩
  | succ count ih =>
    obtain ⟨value, middle, hvalue, hrun⟩ := exists_of_run_bind hrun
    obtain ⟨others, left, hothers, hpure⟩ := exists_of_run_bind hrun
    cases hpure
    obtain ⟨hlength, hreads⟩ := ih hothers
    refine ⟨congrArg Nat.succ hlength, ?_⟩
    exact (h _ _ _ hvalue).bind (hreads.bind_pure _)

theorem readsAs_takeList
    (h : ∀ bytes value rest, take.run bytes = some (value, rest) → ReadsAs take bytes value (fieldsOf value) rest)
    (hrun : (takeList take).run bytes = some (values, rest)) :
    ReadsAs (takeList take) bytes values (listFields fieldsOf values) rest := by
  obtain ⟨count, middle, hcount, hmany⟩ := exists_of_run_bind hrun
  obtain ⟨hlength, hreads⟩ := readsAs_takeMany h hmany
  rw [listFields, hlength]
  exact (readsAs_takeUInt64 hcount).bind hreads

end RegisterMachine.Wire
