import RegisterMachine.Item.Basic

/-!
# Images

The program that a list of items stands for.  A label stands at the offset of its definition, which is the total size
of the items in front of it, and the image of the items has the address of the label in place of each reference.
Both notions go along with appending items, which is how a program is loaded: an offset never changes once the label
is defined (`offset?_append`).
-/

namespace RegisterMachine

namespace Item

/-- The number of bytes of the program that the item takes. -/
def size : Item → Nat
  | byte _ => 1
  | opcode _ => 1
  | word _ => 4
  | bytes values => values.length
  | label _ => 0
  | reference _ => 4

/-- The label that the item defines. -/
def definition? : Item → Option String
  | label name => some name
  | _ => none

/-- The label that the item refers to. -/
def reference? : Item → Option String
  | reference name => some name
  | _ => none

/-- The bytes of the item in a program whose labels have the given addresses. -/
def image (address : String → Int) : Item → List UInt8
  | reference name => Word.toBytes (.ofInt (address name))
  | item => item.toBytes

@[simp] theorem length_toBytes (item : Item) : item.toBytes.length = item.size := by
  cases item <;> rfl

@[simp] theorem length_image (address : String → Int) (item : Item) : (item.image address).length = item.size := by
  cases item <;> rfl

theorem eq_reference {item : Item} {name : String} (h : item.reference? = some name) : item = reference name := by
  cases item <;> cases h
  rfl

theorem image_of_reference?_eq_none {item : Item} (h : item.reference? = none) (address : String → Int) :
    item.image address = item.toBytes := by
  cases item <;> first | rfl | cases h

end Item

namespace Image

/-- The total size of the items. -/
def size : List Item → Nat
  | [] => 0
  | item :: items => item.size + size items

/-- The total size of the items in front of the definition of a label. -/
def offset? (name : String) : List Item → Option Nat
  | [] => none
  | item :: items =>
    if item.definition? = some name then some 0 else (offset? name items).map fun offset => item.size + offset

/-- The labels that the items define, in their order. -/
def definitions (items : List Item) : List String := items.filterMap Item.definition?

/-- The labels that the items refer to, in their order. -/
def references (items : List Item) : List String := items.filterMap Item.reference?

/-- The address of a label in a program that is loaded at the base. -/
def address (base : Int) (items : List Item) (name : String) : Int := base + ((offset? name items).getD 0 : Nat)

/-- The bytes of a program that is loaded at the base. -/
def bytes (base : Int) (items : List Item) : List UInt8 := items.flatMap (Item.image (address base items))

@[simp] theorem length_flatMap_toBytes (items : List Item) : (items.flatMap Item.toBytes).length = size items := by
  induction items with
  | nil => rfl
  | cons item items ih => rw [List.flatMap_cons, List.length_append, Item.length_toBytes, ih, size]

@[simp] theorem length_flatMap_image (address : String → Int) (items : List Item) :
    (items.flatMap (Item.image address)).length = size items := by
  induction items with
  | nil => rfl
  | cons item items ih => rw [List.flatMap_cons, List.length_append, Item.length_image, ih, size]

/-- An image depends on the addresses of the labels that the items refer to and on no others. -/
theorem flatMap_image_congr {address address' : String → Int} {items : List Item}
    (h : ∀ name ∈ references items, address name = address' name) :
    items.flatMap (Item.image address) = items.flatMap (Item.image address') := by
  induction items with
  | nil => rfl
  | cons item items ih =>
    have hitem : item.image address = item.image address' := by
      cases hreference : item.reference? with
      | none => rw [Item.image_of_reference?_eq_none hreference, Item.image_of_reference?_eq_none hreference]
      | some name =>
        have hname := h name (List.mem_filterMap.2 ⟨item, List.mem_cons_self, hreference⟩)
        rw [Item.eq_reference hreference, Item.image, Item.image, hname]
    rw [List.flatMap_cons, List.flatMap_cons, hitem, ih]
    intro name hname
    obtain ⟨other, hother, hreference⟩ := List.mem_filterMap.1 hname
    exact h name (List.mem_filterMap.2 ⟨other, List.mem_cons_of_mem _ hother, hreference⟩)

/-- The bytes of an item stand behind those of all items in front of it. -/
theorem take_drop_flatMap_image (address : String → Int) (front back : List Item) (item : Item) :
    (((front ++ item :: back).flatMap (Item.image address)).drop (size front)).take item.size = item.image address := by
  rw [List.flatMap_append, List.flatMap_cons, List.drop_left' (length_flatMap_image address front),
    List.take_left' (Item.length_image address item)]

@[simp] theorem size_append (front back : List Item) : size (front ++ back) = size front + size back := by
  induction front with
  | nil => rw [List.nil_append, size, Nat.zero_add]
  | cons item front ih => rw [List.cons_append, size, ih, size, Nat.add_assoc]

theorem definitions_append (front back : List Item) :
    definitions (front ++ back) = definitions front ++ definitions back := List.filterMap_append

theorem references_append (front back : List Item) :
    references (front ++ back) = references front ++ references back := List.filterMap_append

theorem definitions_singleton (item : Item) : definitions [item] = item.definition?.toList := by
  cases item <;> rfl

theorem references_cons (item : Item) (items : List Item) :
    references (item :: items) = item.reference?.toList ++ references items := by
  cases item <;> rfl

/-- Items behind the first definition of a label do not change its offset. -/
theorem offset?_append (name : String) (front back : List Item) :
    offset? name (front ++ back) =
      (offset? name front).or ((offset? name back).map fun offset => size front + offset) := by
  induction front with
  | nil => simp [offset?, size]
  | cons item front ih =>
    rw [List.cons_append, offset?, offset?, ih]
    by_cases hname : item.definition? = some name
    · rw [if_pos hname, if_pos hname, Option.some_or]
    · rw [if_neg hname, if_neg hname, size]
      cases offset? name front <;> cases offset? name back <;> simp [Nat.add_assoc]

theorem offset?_append_of_eq_some {name : String} {front : List Item} {offset : Nat}
    (h : offset? name front = some offset) (back : List Item) : offset? name (front ++ back) = some offset := by
  rw [offset?_append, h, Option.some_or]

/-- A label has an offset exactly if it is defined. -/
theorem offset?_eq_none_iff {name : String} {items : List Item} :
    offset? name items = none ↔ name ∉ definitions items := by
  induction items with
  | nil => simp [offset?, definitions]
  | cons item items ih =>
    rw [offset?]
    by_cases hname : item.definition? = some name
    · simp [hname, definitions]
    · rw [if_neg hname, Option.map_eq_none_iff, ih]
      cases hdefinition : item.definition? with
      | none => simp [definitions, hdefinition]
      | some other =>
        rw [hdefinition] at hname
        have hne : name ≠ other := fun h => hname (congrArg some h.symm)
        simp [definitions, hdefinition, hne]

theorem mem_definitions_of_offset?_eq_some {name : String} {items : List Item} {offset : Nat}
    (h : offset? name items = some offset) : name ∈ definitions items := by
  apply Classical.byContradiction
  intro hundefined
  rw [offset?_eq_none_iff.2 hundefined] at h
  cases h

/-- Where labels are distinct, each stands at the total size of the items in front of its definition. -/
theorem offset?_of_nodup {front back : List Item} {name : String}
    (h : (definitions (front ++ .label name :: back)).Nodup) :
    offset? name (front ++ .label name :: back) = some (size front) := by
  have hfront : name ∉ definitions front := by
    intro hname
    rw [definitions_append, List.nodup_append] at h
    exact h.2.2 name hname name (List.mem_filterMap.2 ⟨.label name, List.mem_cons_self, rfl⟩) rfl
  have hback : offset? name (.label name :: back) = some 0 := if_pos rfl
  rw [offset?_append, offset?_eq_none_iff.2 hfront, hback]
  rfl

theorem offset?_le_size {name : String} {items : List Item} {offset : Nat} (h : offset? name items = some offset) :
    offset ≤ size items := by
  induction items generalizing offset with
  | nil => cases h
  | cons item items ih =>
    rw [offset?] at h
    split at h
    · cases h
      exact Nat.zero_le _
    · obtain ⟨behind, hbehind, rfl⟩ := Option.map_eq_some_iff.1 h
      rw [size]
      exact Nat.add_le_add_left (ih hbehind) _

/-- No address is behind the program. -/
theorem address_le (base : Int) (items : List Item) (name : String) :
    address base items name ≤ base + size items := by
  rw [address]
  cases hoffset : offset? name items with
  | none =>
    rw [Option.getD_none]
    omega
  | some offset =>
    have hle := offset?_le_size hoffset
    rw [Option.getD_some]
    omega

end Image

end RegisterMachine
