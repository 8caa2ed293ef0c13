import Std.Data.ExtTreeMap
import PolicyReach.Ordered.Set

/-!
# Finite maps in ascending order of their keys

`OrdMap κ β` lists its entries in strictly ascending order of their keys
(`OrdMap.ascending_entries`), which is the order in which they are reported, and two maps with the
same lookups are equal (`OrdMap.ext`). Every operation is described by what it does to lookups:
`get?_insert`, `get?_insertWith`, `get?_erase`, or to the list of entries: `entries_filter`.
-/

namespace PolicyReach

open Std

/-- A finite map, its entries in strictly ascending order of their keys. -/
structure OrdMap (κ β : Type) [Ord κ] where
  tree : ExtTreeMap κ β

namespace OrdMap

variable {κ β : Type} [Ord κ]

/-- The map with no entries. -/
def empty : OrdMap κ β := ⟨∅⟩

instance : EmptyCollection (OrdMap κ β) := ⟨empty⟩

instance : Inhabited (OrdMap κ β) := ⟨empty⟩

variable [TransOrd κ]

/-- The entries, in ascending order of their keys. -/
def entries (m : OrdMap κ β) : List (κ × β) := m.tree.toList

/-- The value of key `k`. -/
def get? (m : OrdMap κ β) (k : κ) : Option β := m.tree[k]?

/-- Has `k` a value? -/
def contains (m : OrdMap κ β) (k : κ) : Bool := (m.get? k).isSome

/-- The number of entries. -/
def size (m : OrdMap κ β) : Nat := m.tree.size

/-- The keys, ascending. -/
def keyList (m : OrdMap κ β) : List κ := m.entries.map Prod.fst

/-- The values, in the order of their keys. -/
def values (m : OrdMap κ β) : List β := m.entries.map Prod.snd

/-- The keys as a set. -/
def keys (m : OrdMap κ β) : OrdSet κ := .ofList m.keyList

/-- Give `k` the value `v`, or `f old v` where it has the value `old`. -/
def insertWith (f : β → β → β) (m : OrdMap κ β) (k : κ) (v : β) : OrdMap κ β :=
  ⟨m.tree.alter k fun old => some (old.elim v (f · v))⟩

/-- Give `k` the value `v`. -/
def insert (m : OrdMap κ β) (k : κ) (v : β) : OrdMap κ β := ⟨m.tree.insert k v⟩

/-- The map without key `k`. -/
def erase (m : OrdMap κ β) (k : κ) : OrdMap κ β := ⟨m.tree.erase k⟩

/-- The map of a list's entries; a later entry wins over an earlier one of its key. -/
def ofList (l : List (κ × β)) : OrdMap κ β := l.foldl (fun m e => m.insert e.1 e.2) empty

/-- The entries for which `p` holds. -/
def filter (p : κ → β → Bool) (m : OrdMap κ β) : OrdMap κ β := ⟨m.tree.filter p⟩

/-- The entries are listed in strictly ascending order of their keys. -/
theorem ascending_entries (m : OrdMap κ β) :
    m.entries.Pairwise fun a b => compare a.1 b.1 = .lt :=
  ExtTreeMap.ordered_keys_toList

theorem nodup_entries (m : OrdMap κ β) : m.entries.Nodup := by
  refine m.ascending_entries.imp fun {a b} h heq => ?_
  have hself : compare b.1 b.1 = .eq := ReflCmp.compare_self
  rw [heq, hself] at h
  exact nomatch h

theorem ascending_keyList (m : OrdMap κ β) : m.keyList.Pairwise fun a b => compare a b = .lt :=
  List.pairwise_map.mpr m.ascending_entries

@[simp]
theorem length_entries (m : OrdMap κ β) : m.entries.length = m.size := ExtTreeMap.length_toList

@[simp]
theorem entries_filter (p : κ → β → Bool) (m : OrdMap κ β) :
    (m.filter p).entries = m.entries.filter fun e => p e.1 e.2 :=
  ExtTreeMap.toList_filter

@[simp]
theorem get?_empty (k : κ) : (empty : OrdMap κ β).get? k = none := ExtTreeMap.getElem?_empty

theorem contains_tree (m : OrdMap κ β) (k : κ) : m.tree.contains k = (m.get? k).isSome :=
  ExtTreeMap.contains_eq_isSome_getElem?

theorem size_insert_of_none {m : OrdMap κ β} {k : κ} (h : m.get? k = none) (v : β) :
    (m.insert k v).size = m.size + 1 := by
  rw [size, insert, ExtTreeMap.size_insert, contains_tree, h, if_neg (nomatch ·), size]

theorem size_insert_of_some {m : OrdMap κ β} {k : κ} {w : β} (h : m.get? k = some w) (v : β) :
    (m.insert k v).size = m.size := by
  rw [size, insert, ExtTreeMap.size_insert, contains_tree, h, if_pos Option.isSome_some, size]

theorem size_erase_of_some {m : OrdMap κ β} {k : κ} {w : β} (h : m.get? k = some w) :
    (m.erase k).size = m.size - 1 := by
  rw [size, erase, ExtTreeMap.size_erase, contains_tree, h, if_pos Option.isSome_some, size]

section Lawful

variable [LawfulEqOrd κ]

theorem get?_eq_some_iff {m : OrdMap κ β} {k : κ} {v : β} :
    m.get? k = some v ↔ (k, v) ∈ m.entries :=
  ExtTreeMap.mem_toList_iff_getElem?_eq_some.symm

theorem mem_keyList {m : OrdMap κ β} {k : κ} : k ∈ m.keyList ↔ m.contains k = true := by
  simp only [keyList, contains, List.mem_map, Prod.exists, exists_and_right, exists_eq_right,
    Option.isSome_iff_exists, get?_eq_some_iff]

@[simp]
theorem mem_keys {m : OrdMap κ β} {k : κ} : k ∈ m.keys ↔ ∃ v, m.get? k = some v := by
  simp [keys, keyList, get?_eq_some_iff]

/-- Two maps with the same lookups are equal. -/
theorem ext {m n : OrdMap κ β} (h : ∀ k, m.get? k = n.get? k) : m = n := by
  cases m
  cases n
  exact congrArg mk (ExtTreeMap.ext_getElem? h)

/-- Two maps with the same list of entries are equal. -/
theorem entries_inj {m n : OrdMap κ β} : m.entries = n.entries ↔ m = n := by
  constructor
  · intro h
    refine ext fun k => Option.ext fun v => ?_
    rw [get?_eq_some_iff, h, get?_eq_some_iff]
  · exact fun h => h ▸ rfl

instance [DecidableEq κ] [DecidableEq β] : DecidableEq (OrdMap κ β) := fun _ _ =>
  decidable_of_iff _ entries_inj

theorem get?_insertWith [DecidableEq κ] (f : β → β → β) (m : OrdMap κ β) (k : κ) (v : β) (j : κ) :
    (m.insertWith f k v).get? j =
      if j = k then some (((m.get? k).map (f · v)).getD v) else m.get? j := by
  rw [get?, insertWith, ExtTreeMap.getElem?_alter]
  simp only [LawfulEqOrd.compare_eq_iff_eq, eq_comm (a := k), get?]
  cases m.tree[k]? <;> rfl

theorem get?_insert [DecidableEq κ] (m : OrdMap κ β) (k : κ) (v : β) (j : κ) :
    (m.insert k v).get? j = if j = k then some v else m.get? j := by
  rw [get?, insert, ExtTreeMap.getElem?_insert]
  simp only [LawfulEqOrd.compare_eq_iff_eq, eq_comm (a := k), get?]

theorem get?_erase [DecidableEq κ] (m : OrdMap κ β) (k j : κ) :
    (m.erase k).get? j = if j = k then none else m.get? j := by
  rw [get?, erase, ExtTreeMap.getElem?_erase]
  simp only [LawfulEqOrd.compare_eq_iff_eq, eq_comm (a := k), get?]

theorem get?_filter (p : κ → β → Bool) (m : OrdMap κ β) (k : κ) :
    (m.filter p).get? k = (m.get? k).filter (p k) := by
  refine Option.ext fun v => ?_
  rw [get?_eq_some_iff, entries_filter, List.mem_filter, ← get?_eq_some_iff,
    Option.filter_eq_some_iff]

end Lawful

end OrdMap

end PolicyReach
