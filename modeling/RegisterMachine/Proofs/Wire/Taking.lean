import RegisterMachine.Proofs.Wire.Groups

/-!
# Taking

A decoder takes some bytes as a value if nothing behind them matters to it and it does not do with fewer (`Takes`).
Decoders one after the other take bytes one after the other (`Takes.bind`), so what is known of numbers carries over to
lists (`takes_takeList`) and to records.
-/

namespace RegisterMachine.Wire

variable {α β : Type}

/-- The decoder takes the bytes as the value: it leaves what follows them, and refuses them where some are missing. -/
structure Takes (take : Decoder α) (used : List UInt8) (value : α) : Prop where
  run_append (rest : List UInt8) : take.run (used ++ rest) = some (value, rest)
  run_of_cut {front missing : List UInt8} (hsplit : used = front ++ missing) (hne : missing ≠ []) :
    take.run front = none

namespace Takes

theorem pure (value : α) : Takes (Pure.pure value) [] value where
  run_append _ := rfl
  run_of_cut hsplit hne := absurd (List.append_eq_nil_iff.1 hsplit.symm).2 hne

/-- Bytes that are cut short are missing to the first of two decoders or to the second one. -/
theorem bind {take : Decoder α} {next : α → Decoder β} {used more : List UInt8} {value : α} {result : β}
    (h : Takes take used value) (hnext : Takes (next value) more result) :
    Takes (take >>= next) (used ++ more) result where
  run_append rest := by
    rw [StateT.run_bind, List.append_assoc, h.run_append]
    exact hnext.run_append rest
  run_of_cut {front missing} hsplit hne := by
    rw [StateT.run_bind]
    rcases List.append_eq_append_iff.1 hsplit with ⟨taken, rfl, hmore⟩ | ⟨left, hused, hmissing⟩
    · rw [h.run_append]
      exact hnext.run_of_cut hmore hne
    · by_cases hleft : left = []
      · -- The cut is between the decoders, so the second one lacks all of its bytes.
        have hall := h.run_append []
        rw [List.append_nil, hused, hleft, List.append_nil] at hall
        rw [hleft, List.nil_append] at hmissing
        rw [hall]
        exact hnext.run_of_cut (List.nil_append more).symm (hmissing ▸ hne)
      · rw [h.run_of_cut hused hleft]
        rfl

/-- What is made of the value may take no bytes. -/
theorem bind_of_nil {take : Decoder α} {next : α → Decoder β} {used : List UInt8} {value : α} {result : β}
    (h : Takes take used value) (hnext : Takes (next value) [] result) : Takes (take >>= next) used result := by
  have hbind := h.bind hnext
  rwa [List.append_nil] at hbind

theorem bind_pure {take : Decoder α} {used : List UInt8} {value : α} (h : Takes take used value) (f : α → β) :
    Takes (take >>= fun value => Pure.pure (f value)) used (f value) := h.bind_of_nil (.pure (f value))

theorem map {take : Decoder α} {used : List UInt8} {value : α} (h : Takes take used value) (f : α → β) :
    Takes (f <$> take) used (f value) := by
  rw [map_eq_pure_bind]
  exact h.bind_pure f

end Takes

/-! ### Numbers -/

theorem takes_takeByte (byte : UInt8) : Takes takeByte [byte] byte where
  run_append _ := rfl
  run_of_cut {front missing} hsplit hne := by
    cases front with
    | nil => rfl
    | cons first front =>
      rw [List.cons_append, List.cons.injEq] at hsplit
      exact absurd (List.append_eq_nil_iff.1 hsplit.2.symm).2 hne

/-- Groups that are cut short end in one that has another one behind it. -/
theorem takes_of_grouped {top groups n : Nat} {used : List UInt8} (hused : Grouped used n)
    (hlength : used.length ≤ groups + 1) (hn : n < varintBound top groups) :
    Takes (takeVarint top (groups + 1)) used n := by
  induction hused generalizing groups with
  | @last byte h =>
    have hrun (rest : List UInt8) : (takeVarint top (groups + 1)).run (byte :: rest) = some (byte.toNat, rest) := by
      rw [run_takeVarint_cons, if_pos h, if_neg]
      rintro ⟨rfl, htop⟩
      rw [varintBound] at hn
      omega
    refine ⟨hrun, ?_⟩
    intro front missing hsplit hne
    cases front with
    | nil => rfl
    | cons first front =>
      rw [List.cons_append, List.cons.injEq] at hsplit
      exact absurd (List.append_eq_nil_iff.1 hsplit.2.symm).2 hne
  | @more byte bytes n h hrest ih =>
    have hpos := hrest.length_pos
    rw [List.length_cons] at hlength
    obtain ⟨fewer, rfl⟩ : ∃ fewer, groups = fewer + 1 := ⟨groups - 1, by omega⟩
    rw [varintBound] at hn
    have htakes : Takes (takeVarint top (fewer + 1)) bytes n := ih (by omega) (by omega)
    refine ⟨fun rest => ?_, ?_⟩
    · rw [List.cons_append, run_takeVarint_cons, if_neg (by omega), htakes.run_append]
      rfl
    · intro front missing hsplit hne
      cases front with
      | nil => rfl
      | cons first front =>
        rw [List.cons_append, List.cons.injEq] at hsplit
        rw [run_takeVarint_cons, ← hsplit.1, if_neg (by omega), htakes.run_of_cut hsplit.2 hne]
        rfl

theorem takes_takeVarint {top groups n : Nat} (ht : top < 128) (hn : n < varintBound top groups) :
    Takes (takeVarint top (groups + 1)) (varint n) n :=
  takes_of_grouped (grouped_varint n) (length_varint_le ht hn) hn

/-- A number is read from groups that stand for it, of which there are not too many. -/
theorem exists_grouped_of_run {top groups n : Nat} {bytes rest : List UInt8}
    (h : (takeVarint top (groups + 1)).run bytes = some (n, rest)) :
    ∃ used, bytes = used ++ rest ∧ Grouped used n ∧ used.length ≤ groups + 1 ∧ n < varintBound top groups := by
  induction groups generalizing bytes n with
  | zero =>
    cases bytes with
    | nil => cases h
    | cons byte bytes =>
      rw [run_takeVarint_cons] at h
      split at h
      · split at h
        · cases h
        · cases h
          exact ⟨[byte], rfl, .last ‹_›, Nat.le_refl 1, by rw [varintBound]; omega⟩
      · cases h
  | succ groups ih =>
    cases bytes with
    | nil => cases h
    | cons byte bytes =>
      rw [run_takeVarint_cons] at h
      split at h
      · split at h
        · cases h
        · cases h
          have hbound := le_varintBound top groups
          exact ⟨[byte], rfl, .last ‹_›, Nat.le_add_left _ _, by rw [varintBound]; omega⟩
      · rename_i hbyte
        obtain ⟨⟨high, left⟩, hhigh, h⟩ := Option.map_eq_some_iff.1 h
        cases h
        obtain ⟨used, rfl, hused, hlength, hlt⟩ := ih hhigh
        have hbyteLt := byte.toNat_lt
        refine ⟨byte :: used, rfl, .more (Nat.not_lt.1 hbyte) hused, Nat.succ_le_succ hlength, ?_⟩
        rw [varintBound]
        omega

theorem takes_takeUInt32 (n : UInt32) : Takes takeUInt32 (varint n.toNat) n := by
  have hn : n.toNat < varintBound 0x0f 4 := n.toNat_lt
  have htakes := (takes_takeVarint (by decide) hn).map UInt32.ofNat
  rwa [UInt32.ofNat_toNat] at htakes

theorem takes_takeUInt64 (n : UInt64) : Takes takeUInt64 (varint n.toNat) n := by
  have hn : n.toNat < varintBound 0x01 9 := n.toNat_lt
  have htakes := (takes_takeVarint (by decide) hn).map UInt64.ofNat
  rwa [UInt64.ofNat_toNat] at htakes

/-- Folding keeps the numbers with a sign within 32 bits. -/
theorem zigzag_lt (value : Int32) : zigzag value.toInt < 4294967296 := by
  have hlow := value.le_toInt
  have hhigh := value.toInt_lt
  cases hvalue : value.toInt with
  | ofNat n =>
    rw [hvalue, Int.ofNat_eq_natCast] at hhigh
    rw [zigzag]
    omega
  | negSucc n =>
    rw [hvalue] at hlow
    rw [zigzag]
    omega

theorem takes_takeInt32 (value : Int32) : Takes takeInt32 (encodeInt32 value) value := by
  have hn : zigzag value.toInt < varintBound 0x0f 4 := zigzag_lt value
  have htakes := (takes_takeVarint (by decide) hn).map fun n => Int32.ofInt (unzigzag n)
  rwa [unzigzag_zigzag, Int32.ofInt_toInt] at htakes

/-! ### Lists -/

variable {take : Decoder α} {encode : α → List UInt8} {values : List α}

theorem takes_takeMany (h : ∀ value ∈ values, Takes take (encode value) value) :
    Takes (takeMany take values.length) (values.flatMap encode) values := by
  induction values with
  | nil => exact .pure []
  | cons value values ih =>
    rw [List.forall_mem_cons] at h
    rw [List.length_cons, takeMany, List.flatMap_cons]
    exact h.1.bind ((ih h.2).bind_pure _)

/-- The number of values is written in 64 bits. -/
theorem takes_takeList (h : ∀ value ∈ values, Takes take (encode value) value)
    (hlength : values.length < 18446744073709551616) : Takes (takeList take) (encodeList encode values) values := by
  have hcount := takes_takeUInt64 (UInt64.ofNat values.length)
  have hmany := takes_takeMany h
  rw [UInt64.toNat_ofNat_of_lt' hlength] at hcount
  unfold takeList encodeList
  refine hcount.bind ?_
  rwa [UInt64.toNat_ofNat_of_lt' hlength]

end RegisterMachine.Wire
