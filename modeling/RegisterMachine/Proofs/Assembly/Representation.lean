import Mathlib.Data.List.Sort
import RegisterMachine.Proofs.Assembly.Mentions
import RegisterMachine.Proofs.Assembly.Rebasing

/-!
# Representation

How code, labels and pending references of an assembly go together, whatever was asked of it before: each reference
waits in four bytes of its own, which are zero until they are linked (`Assembly.WellFormed`).  What an assembly has
once, no request takes back: code grows at its end, labels stay where they are, and only the bytes that wait for an
address are overwritten (`Assembly.Keeps`).  Both hold for all requests together, failing ones included
(`Assembly.wellFormed_afterRequests`).

So the references that wait can as well be kept in a map with their offsets as keys: none takes the place of another
one, and the map lists them in the order in which they came (`Assembly.toList_pendingByOffset_afterRequests`).
-/

namespace RegisterMachine

open Assembling
open LoadedItem (plain)

/-- The byte at the offset is one of the four that wait for the address. -/
def Reference.Covers (reference : Reference) (i : Nat) : Prop := reference.offset ≤ i ∧ i < reference.offset + 4

namespace Assembly

/-- Code, labels and pending references go together. -/
structure WellFormed (assembly : Assembly) : Prop where
  fits : ∀ reference ∈ assembly.pending.toList, reference.offset + 4 ≤ assembly.code.size
  zeros : ∀ reference ∈ assembly.pending.toList, ∀ i, reference.Covers i → assembly.code[i]? = some 0
  apart : assembly.pending.toList.Pairwise fun first second => first.offset + 4 ≤ second.offset
  label?_le : ∀ name offset, assembly.label? name = some offset → offset ≤ assembly.code.size
  chunk_mem : ∀ reference ∈ assembly.pending.toList, 1 ≤ reference.chunk ∧ reference.chunk ≤ assembly.chunkCount

/-- What the earlier assembly had is still there: the code is no shorter, labels stand where they stood, and a byte
that did not wait for an address is as it was.  References that were not pending stand behind the earlier code. -/
structure Keeps (assembly before : Assembly) : Prop where
  size_le : before.code.size ≤ assembly.code.size
  label?_eq : ∀ name offset, before.label? name = some offset → assembly.label? name = some offset
  getElem?_eq : ∀ i, i < before.code.size → (∀ reference ∈ before.pending.toList, ¬reference.Covers i) →
    assembly.code[i]? = before.code[i]?
  pending_of_lt : ∀ reference ∈ assembly.pending.toList, reference.offset < before.code.size →
    reference ∈ before.pending.toList

end Assembly

/-! ### Where references stand -/

namespace LoadedItem

variable {offset : Nat} {loaded : List LoadedItem} {reference : Reference}

theorem references_cons (offset : Nat) (entry : LoadedItem) (loaded : List LoadedItem) :
    references offset (entry :: loaded) =
      (entry.item.reference?.map (⟨offset, ·, entry.chunk, entry.line⟩)).toList ++
        references (offset + entry.item.size) loaded := by
  rw [references]
  cases entry.item.reference? <;> rfl

/-- The reference that an item makes stands behind the items in front of it. -/
theorem mem_references {entry : LoadedItem} {name : String} (hentry : entry.item = .reference name) (offset : Nat)
    (front back : List LoadedItem) :
    ⟨offset + Image.size (plain front), name, entry.chunk, entry.line⟩ ∈
      references offset (front ++ entry :: back) := by
  rw [references_append, references_cons, hentry]
  exact List.mem_append_right _ (List.mem_append_left _ List.mem_cons_self)

/-- Every reference is made by an item and stands behind the items in front of it. -/
theorem exists_of_mem_references (h : reference ∈ references offset loaded) :
    ∃ front entry back, loaded = front ++ entry :: back ∧ entry.item = .reference reference.name ∧
      reference.offset = offset + Image.size (plain front) ∧ reference.chunk = entry.chunk := by
  induction loaded generalizing offset with
  | nil => cases h
  | cons first loaded ih =>
    rw [references_cons, List.mem_append] at h
    rcases h with h | h
    · obtain ⟨name, hname, rfl⟩ := Option.map_eq_some_iff.1 (Option.mem_toList.1 h)
      exact ⟨[], first, loaded, rfl, Item.eq_reference hname, rfl, rfl⟩
    · obtain ⟨front, entry, back, rfl, hitem, hoffset, hchunk⟩ := ih h
      refine ⟨first :: front, entry, back, rfl, hitem, ?_, hchunk⟩
      rw [hoffset, Nat.add_assoc]
      rfl

/-- References stand one behind the other, each in four bytes of its own. -/
theorem pairwise_references (offset : Nat) (loaded : List LoadedItem) :
    (references offset loaded).Pairwise fun first second => first.offset + 4 ≤ second.offset := by
  induction loaded generalizing offset with
  | nil => exact .nil
  | cons entry loaded ih =>
    rw [references]
    cases hentry : entry.item.reference? with
    | none => exact ih _
    | some name =>
      refine List.pairwise_cons.2 ⟨fun reference hreference => ?_, ih _⟩
      obtain ⟨front, -, -, -, -, hoffset, -⟩ := exists_of_mem_references hreference
      rw [hoffset, Item.eq_reference hentry]
      exact Nat.le_add_right _ _

end LoadedItem

/-- An item that waits is its image where every address is zero. -/
theorem Item.image_zero (item : Item) : item.image (fun _ => 0) = item.toBytes := by
  cases item with
  | reference name =>
    show Word.toBytes (.ofInt 0) = [0, 0, 0, 0]
    decide
  | _ => rfl

/-- Behind the image of items stands what comes next. -/
theorem Image.getElem?_image_append (address : String → Int) (items : List Item) (bytes : List UInt8) (i : Nat) :
    (items.flatMap (Item.image address) ++ bytes)[size items + i]? = bytes[i]? := by
  have hlength := length_flatMap_image address items
  rw [List.getElem?_append_right (by omega), hlength, Nat.add_sub_cancel_left]

namespace Assembly

variable {assembly before last : Assembly} {linked waiting more : List LoadedItem} {history : History}

namespace Holds

/-- The bytes of what waits stand behind those of what is linked. -/
private theorem getElem?_code (h : assembly.Holds linked waiting) (i : Nat) :
    assembly.code[Image.size (plain linked) + i]? = ((plain waiting).flatMap (Item.image fun _ => 0))[i]? := by
  rw [← Array.getElem?_toList, h.code_eq, Image.getElem?_image_append, funext Item.image_zero]

/-- The bytes of a reference that waits are there, and they are zero. -/
private theorem zeros_of_mem_pending (h : assembly.Holds linked waiting) {reference : Reference}
    (hreference : reference ∈ assembly.pending.toList) {i : Nat} (hi : reference.Covers i) :
    assembly.code[i]? = some 0 := by
  rw [h.pending_eq] at hreference
  obtain ⟨front, entry, back, rfl, hitem, hoffset, -⟩ := LoadedItem.exists_of_mem_references hreference
  obtain ⟨j, rfl⟩ := Nat.exists_eq_add_of_le hi.1
  have hj : j < 4 := Nat.lt_of_add_lt_add_left hi.2
  have hzeros := Image.take_drop_flatMap_image (fun _ => 0) (plain front) (plain back) (.reference reference.name)
  rw [Item.image_zero, ← hitem] at hzeros
  have hbyte : ((plain (front ++ entry :: back)).flatMap (Item.image fun _ => 0))[Image.size (plain front) + j]? =
      entry.item.toBytes[j]? := by
    rw [LoadedItem.plain_append, ← List.getElem?_drop, ← hzeros, List.getElem?_take_of_lt (by rwa [hitem])]
    rfl
  rw [hoffset, Nat.add_assoc, h.getElem?_code, hbyte, hitem]
  show (List.replicate 4 (0 : UInt8))[j]? = some 0
  rw [List.getElem?_replicate, if_pos hj]

private theorem label?_le (h : assembly.Holds linked waiting) {name : String} {offset : Nat}
    (hoffset : assembly.label? name = some offset) : offset ≤ assembly.code.size := by
  rw [label?, h.labels_eq] at hoffset
  rw [h.size_code]
  exact Image.offset?_le_size hoffset

/-- The bytes of a reference that waits are all there. -/
private theorem fits (h : assembly.Holds linked waiting) {reference : Reference}
    (hreference : reference ∈ assembly.pending.toList) : reference.offset + 4 ≤ assembly.code.size := by
  have hlast : assembly.code[reference.offset + 3]? = some 0 := h.zeros_of_mem_pending hreference ⟨by omega, by omega⟩
  obtain ⟨hlt, -⟩ := Array.getElem?_eq_some_iff.1 hlast
  omega

/-- Code, labels and pending references go together in an assembly that holds items, if the chunks of those that wait
were counted. -/
theorem wellFormed (h : assembly.Holds linked waiting)
    (hchunks : ∀ entry ∈ waiting, 1 ≤ entry.chunk ∧ entry.chunk ≤ assembly.chunkCount) : assembly.WellFormed where
  fits := fun _ => h.fits
  zeros := fun _ hreference _ hi => h.zeros_of_mem_pending hreference hi
  apart := by
    rw [h.pending_eq]
    exact LoadedItem.pairwise_references _ _
  label?_le := fun _ _ => h.label?_le
  chunk_mem := by
    intro reference hreference
    rw [h.pending_eq] at hreference
    obtain ⟨front, entry, back, rfl, -, -, hchunk⟩ := LoadedItem.exists_of_mem_references hreference
    rw [hchunk]
    exact hchunks entry (List.mem_append_right _ List.mem_cons_self)

end Holds

/-! ### Offsets as keys -/

/-- A map is listed in ascending order of its keys, so entries that ascend already are their own listing. -/
private theorem toList_ofList {entries : List (Nat × Reference)}
    (h : entries.Pairwise fun first second => first.1 < second.1) : (Std.TreeMap.ofList entries).toList = entries := by
  have hlisting : (Std.TreeMap.ofList entries).toList.Pairwise fun first second => first.1 < second.1 :=
    Std.TreeMap.ordered_keys_toList.imp fun hlt => Nat.compare_eq_lt.1 hlt
  have hdistinct : entries.Pairwise fun first second => ¬compare first.1 second.1 = .eq :=
    h.imp fun hlt heq => Nat.ne_of_lt hlt (Nat.compare_eq_eq.1 heq)
  have hget {entry : Nat × Reference} (hentry : entry ∈ entries) :
      (Std.TreeMap.ofList entries)[entry.1]? = some entry.2 :=
    Std.TreeMap.getElem?_ofList_of_mem (Nat.compare_eq_eq.2 rfl) hdistinct hentry
  have hmem (entry : Nat × Reference) : entry ∈ (Std.TreeMap.ofList entries).toList ↔ entry ∈ entries := by
    obtain ⟨key, reference⟩ := entry
    rw [Std.TreeMap.mem_toList_iff_getElem?_eq_some]
    refine ⟨fun hsome => ?_, hget⟩
    have hkey : key ∈ Std.TreeMap.ofList entries := Std.TreeMap.mem_iff_isSome_getElem?.2 (by rw [hsome]; rfl)
    rw [Std.TreeMap.mem_ofList, List.contains_iff_mem, List.mem_map] at hkey
    obtain ⟨⟨_, found⟩, hfound, rfl⟩ := hkey
    cases (hget hfound).symm.trans hsome
    exact hfound
  have : Std.Irrefl fun first second : Nat × Reference => first.1 < second.1 := ⟨fun _ => Nat.lt_irrefl _⟩
  have : Std.Antisymm fun first second : Nat × Reference => first.1 < second.1 :=
    ⟨fun _ _ hlt hgt => absurd hgt (Nat.lt_asymm hlt)⟩
  exact hlisting.eq_of_mem_iff h hmem

/-- The pending references in a map, put there one after the other with their offsets as keys. -/
def pendingByOffset (assembly : Assembly) : Std.TreeMap Nat Reference :=
  .ofList (assembly.pending.toList.map fun reference => (reference.offset, reference))

theorem pendingByOffset_refer (name : String) (line : Nat) (assembly : Assembly) :
    (assembly.refer name line).pendingByOffset =
      assembly.pendingByOffset.insert assembly.code.size
        ⟨assembly.code.size, name, assembly.chunkCount, line⟩ := by
  rw [pendingByOffset, pendingByOffset, refer, Array.toList_push, List.map_append,
    Std.TreeMap.ofList_eq_insertMany_empty, Std.TreeMap.insertMany_append,
    ← Std.TreeMap.ofList_eq_insertMany_empty]
  rfl

/-- Keyed by their offsets, the references are listed in the order in which they came, each one once. -/
theorem WellFormed.toList_pendingByOffset (h : assembly.WellFormed) :
    assembly.pendingByOffset.toList = assembly.pending.toList.map fun reference => (reference.offset, reference) := by
  apply toList_ofList
  rw [List.pairwise_map]
  exact h.apart.imp fun hle => by omega

/-- A reference that is made behind items, wherever in a chunk, takes a key that no other one has. -/
theorem Holds.notMem_pendingByOffset (h : assembly.Holds linked waiting) :
    assembly.code.size ∉ assembly.pendingByOffset := by
  rw [pendingByOffset, Std.TreeMap.mem_ofList, List.contains_iff_mem, List.map_map, List.mem_map]
  rintro ⟨reference, hreference, hoffset⟩
  have hfits := h.fits hreference
  dsimp only [Function.comp_apply] at hoffset
  omega

/-! ### What stays -/

namespace Keeps

theorem refl (assembly : Assembly) : assembly.Keeps assembly :=
  ⟨Nat.le_refl _, fun _ _ h => h, fun _ _ _ => rfl, fun _ h _ => h⟩

theorem trans (h : last.Keeps assembly) (hbefore : assembly.Keeps before) : last.Keeps before where
  size_le := Nat.le_trans hbefore.size_le h.size_le
  label?_eq := fun name offset hoffset => h.label?_eq name offset (hbefore.label?_eq name offset hoffset)
  getElem?_eq := by
    intro i hi houtside
    rw [h.getElem?_eq i (Nat.lt_of_lt_of_le hi hbefore.size_le), hbefore.getElem?_eq i hi houtside]
    -- A reference that has come in between stands behind the byte.
    intro reference hreference hcovers
    exact houtside reference (hbefore.pending_of_lt reference hreference (Nat.lt_of_le_of_lt hcovers.1 hi)) hcovers
  pending_of_lt := fun reference hreference hlt => hbefore.pending_of_lt reference
    (h.pending_of_lt reference hreference (Nat.lt_of_lt_of_le hlt hbefore.size_le)) hlt

end Keeps

/-- More items go behind what is there. -/
theorem Continues.keeps (h : assembly.Continues before more) : assembly.Keeps before where
  size_le := by
    rw [← Array.length_toList, ← Array.length_toList, h.code_eq, List.length_append]
    exact Nat.le_add_right _ _
  label?_eq := by
    intro name offset hoffset
    rw [h.label?_eq, hoffset, Option.some_or]
  getElem?_eq := by
    intro i hi _
    rw [← Array.getElem?_toList, h.code_eq, List.getElem?_append_left hi, Array.getElem?_toList]
  pending_of_lt := by
    intro reference hreference hlt
    rw [h.pending_eq, List.mem_append] at hreference
    rcases hreference with hreference | hreference
    · exact hreference
    · obtain ⟨front, -, -, -, -, hoffset, -⟩ := LoadedItem.exists_of_mem_references hreference
      omega

/-- A byte that is outside all references that wait is outside the references of the items that make them. -/
private theorem Holds.outsideReferences (h : assembly.Holds linked waiting) {i : Nat}
    (houtside : ∀ reference ∈ assembly.pending.toList, ¬reference.Covers (Image.size (plain linked) + i)) :
    Image.OutsideReferences (plain waiting) i := by
  intro front name back hsplit hinside
  obtain ⟨loadedFront, loadedBehind, rfl, rfl, hbehind⟩ := List.map_eq_append_iff.1 hsplit
  obtain ⟨entry, loadedBack, rfl, hitem, rfl⟩ := List.map_eq_cons_iff.1 hbehind
  have hmem := LoadedItem.mem_references hitem (Image.size (plain linked)) loadedFront loadedBack
  rw [← h.pending_eq] at hmem
  refine houtside _ hmem ⟨Nat.add_le_add_left hinside.1 _, ?_⟩
  rw [Nat.add_assoc]
  exact Nat.add_lt_add_left hinside.2 _

/-- Linking what waits overwrites the bytes of the references and nothing else. -/
theorem Holds.keeps_of_linked (h : assembly.Holds linked waiting) (hlast : last.Holds (linked ++ waiting) [])
    (hbase : last.base = assembly.base) : last.Keeps assembly where
  size_le := by
    have hsize := hlast.size_code
    rw [List.append_nil, ← h.size_code] at hsize
    exact Nat.le_of_eq hsize.symm
  label?_eq := by
    intro name offset hoffset
    rw [label?, h.labels_eq] at hoffset
    rw [label?, hlast.labels_eq, List.append_nil]
    exact hoffset
  getElem?_eq := by
    intro i hi houtside
    have hcode := hlast.code_eq
    rw [List.append_nil, hbase, LoadedItem.plain_append, List.flatMap_append, ← LoadedItem.plain_append,
      show (plain ([] : List LoadedItem)).flatMap Item.toBytes = [] from rfl, List.append_nil] at hcode
    rw [← Array.getElem?_toList, hcode]
    by_cases hlinked : i < Image.size (plain linked)
    · rw [← Array.getElem?_toList, h.code_eq, List.getElem?_append_left (by rwa [Image.length_flatMap_image]),
        List.getElem?_append_left (by rwa [Image.length_flatMap_image])]
    · obtain ⟨j, rfl⟩ := Nat.exists_eq_add_of_le (Nat.le_of_not_lt hlinked)
      rw [h.getElem?_code, Image.getElem?_image_append]
      exact Image.getElem?_flatMap_image _ _ (h.outsideReferences houtside)
  pending_of_lt := by
    intro reference hreference _
    rw [hlast.pending_eq] at hreference
    cases hreference

/-- Linking keeps what is there, whether it fails or not. -/
private theorem Holds.keeps_after_link (h : assembly.Holds linked waiting) (hrunning : assembly.halted = false)
    {request : Request} (hrequest : request = .resolve ∨ request = .emit)
    (hbase : (assembly.after request).base = assembly.base) : (assembly.after request).Keeps assembly := by
  obtain ⟨reply, last, hrun, hlast⟩ := h.exists_run_link hrunning hrequest
  rw [(answer_of_run hrun).2] at hbase ⊢
  cases hunlinkable : LoadedItem.unlinkable? assembly.base linked waiting with
  | some error =>
    rw [hunlinkable] at hlast
    rw [hlast]
    exact .refl assembly
  | none =>
    rw [hunlinkable] at hlast
    exact h.keeps_of_linked hlast.1 hbase

namespace Follows

/-- No request takes anything back. -/
theorem keeps_after (h : assembly.Follows history) (request : Request) :
    (assembly.after request).Keeps assembly := by
  have hbase := (h.perform request).2.2
  obtain ⟨-, -, linked, waiting, -, hholds, -⟩ := h
  cases hhalted : assembly.halted with
  | true =>
    rw [(perform_of_halted hhalted request).2]
    exact .refl assembly
  | false =>
    cases request with
    | load source =>
      obtain ⟨last, hrun, hlast, hbaseLast, -, -⟩ := run_load_of_holds hholds hhalted source
      rw [(answer_load_of_run hrun).2]
      exact (hholds.continues hlast hbaseLast).keeps
    | resolve => exact hholds.keeps_after_link hhalted (Or.inl rfl) hbase
    | emit => exact hholds.keeps_after_link hhalted (Or.inr rfl) hbase

theorem keeps_afterRequests (h : assembly.Follows history) (requests : List Request) :
    (assembly.afterRequests requests).Keeps assembly := by
  induction requests generalizing assembly history with
  | nil => exact .refl assembly
  | cons request requests ih => exact (ih (h.perform request).2.1).trans (h.keeps_after request)

end Follows

end Assembly

/-! ### How chunks are counted -/

/-- Every item came in a chunk that was counted. -/
def History.Counted (history : History) : Prop :=
  ∀ entry ∈ history.items, 1 ≤ entry.chunk ∧ entry.chunk ≤ min history.loads 4294967295

theorem History.Counted.load {history : History} (h : history.Counted) (source : String) :
    (history.load source).Counted := by
  unfold History.load
  split
  · exact h
  · intro entry hentry
    dsimp only at hentry ⊢
    rcases List.mem_append.1 hentry with hentry | hentry
    · obtain ⟨hlow, hhigh⟩ := h entry hentry
      exact ⟨hlow, by omega⟩
    · obtain ⟨item, -, rfl⟩ := List.mem_map.1 hentry
      dsimp only
      omega

theorem History.counted_foldl_load {history : History} (h : history.Counted) (sources : List String) :
    (sources.foldl History.load history).Counted := by
  induction sources generalizing history with
  | nil => exact h
  | cons source sources ih => exact ih (h.load source)

namespace Assembly

private theorem wellFormed_of_requests (base : Int) (requests : List Request) :
    ((empty base).afterRequests requests).WellFormed := by
  obtain ⟨hloads, -, linked, waiting, hitems, hholds, -⟩ := ((follows_empty base).afterRequests requests).1
  have hcounted : ((Request.sources requests).foldl History.load {}).Counted :=
    History.counted_foldl_load (fun _ hentry => by cases hentry) _
  apply hholds.wellFormed
  intro entry hentry
  rw [chunkCount, hloads]
  exact hcounted entry (hitems ▸ List.mem_append_right _ hentry)

/-- Whatever is asked of an assembly, the references that wait are those of a map with their offsets as keys, in
ascending order of the keys. -/
theorem toList_pendingByOffset_afterRequests (base : Int) (requests : List Request) :
    let assembly := (empty base).afterRequests requests
    assembly.pendingByOffset.toList = assembly.pending.toList.map fun reference => (reference.offset, reference) :=
  (wellFormed_of_requests base requests).toList_pendingByOffset

/-- Whatever is asked of an assembly, and whether it fails or not: each pending reference waits in four bytes of the
code that are zero and that no other one waits in, it came in a chunk that was counted, and no label stands behind the
code.  Further requests, be it one or many, keep all labels where they are and never make the code shorter, and of the
bytes that were there they change only those that waited for an address. -/
theorem wellFormed_afterRequests (base : Int) (requests more : List Request) :
    let assembly := (empty base).afterRequests requests
    assembly.WellFormed ∧ (assembly.afterRequests more).Keeps assembly := by
  intro assembly
  exact ⟨wellFormed_of_requests base requests,
    ((follows_empty base).afterRequests requests).1.keeps_afterRequests more⟩

/-- The second chunk fails behind a reference at its end.  The reference of the first one is linked by then, and two
labels stand at the offset behind it. -/
example :
    let assembly := (empty 10).afterRequests
      [.load "label a int b label b", .resolve, .load "label c int a 7 int d hex F"]
    assembly.code.toList = [14, 0, 0, 0] ++ [0, 0, 0, 0] ++ [7] ++ [0, 0, 0, 0] ∧
      assembly.pending.toList = [⟨4, "a", 2, 1⟩, ⟨9, "d", 2, 1⟩] ∧
      assembly.labelList = [("a", 0), ("b", 4), ("c", 4)] := by
  decide +kernel

end Assembly

end RegisterMachine
