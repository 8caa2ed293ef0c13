import Std.Data.ExtTreeSet

/-!
# Finite sets in ascending order

`OrdSet α` lists its members in strictly ascending order (`OrdSet.ascending_toList`), which is the
order in which results are reported, and two sets with the same members are equal (`OrdSet.ext`).
The members sit in a search tree, so that one is found, added or taken away by few comparisons.
Every operation is described by the members of its result: `mem_insert`, `mem_union`, `mem_diff`.
-/

namespace PolicyReach

open Std

/-- A finite set, its members in strictly ascending order. -/
structure OrdSet (α : Type) [Ord α] where
  tree : ExtTreeSet α

namespace OrdSet

variable {α : Type} [Ord α]

/-- The set with no members. -/
def empty : OrdSet α := ⟨∅⟩

instance : EmptyCollection (OrdSet α) := ⟨empty⟩

instance : Inhabited (OrdSet α) := ⟨empty⟩

variable [TransOrd α]

/-- The members, ascending. -/
def toList (s : OrdSet α) : List α := s.tree.toList

instance : Membership α (OrdSet α) := ⟨fun s a => a ∈ s.tree⟩

/-- Is `a` a member? -/
def contains (s : OrdSet α) (a : α) : Bool := s.tree.contains a

/-- Has the set no members? -/
def isEmpty (s : OrdSet α) : Bool := s.tree.isEmpty

/-- The number of members. -/
def size (s : OrdSet α) : Nat := s.tree.size

/-- The least member. -/
def least? (s : OrdSet α) : Option α := Id.run do
  for a in s.tree do
    return some a
  return none

/-- The set with `a` added. -/
def insert (s : OrdSet α) (a : α) : OrdSet α := ⟨s.tree.insert a⟩

/-- The set with `a` taken away. -/
def erase (s : OrdSet α) (a : α) : OrdSet α := ⟨s.tree.erase a⟩

/-- The members for which `p` holds. -/
def filter (p : α → Bool) (s : OrdSet α) : OrdSet α := ⟨s.tree.filter p⟩

/-- The members of `s` outside `t`. -/
def diff (s t : OrdSet α) : OrdSet α := s.filter fun a => !t.contains a

/-- The members of either set. -/
def union (s t : OrdSet α) : OrdSet α := ⟨s.tree ∪ t.tree⟩

/-- The set with every element of a list added. -/
def insertAll (s : OrdSet α) (l : List α) : OrdSet α := l.foldl insert s

/-- The set of a list's elements. -/
def ofList (l : List α) : OrdSet α := empty.insertAll l

/-- The set of the one member `a`. -/
def singleton (a : α) : OrdSet α := empty.insert a

theorem mem_def {s : OrdSet α} {a : α} : a ∈ s ↔ a ∈ s.tree := Iff.rfl

theorem size_insert {s : OrdSet α} {a : α} (h : a ∉ s) : (s.insert a).size = s.size + 1 := by
  rw [size, insert, ExtTreeSet.size_insert]
  exact if_neg h

/-- The members are listed in strictly ascending order. -/
theorem ascending_toList (s : OrdSet α) : s.toList.Pairwise fun a b => compare a b = .lt :=
  ExtTreeSet.ordered_toList

theorem nodup_toList (s : OrdSet α) : s.toList.Nodup := by
  refine s.ascending_toList.imp fun {a b} h heq => ?_
  have hself : compare b b = .eq := ReflCmp.compare_self
  rw [heq, hself] at h
  exact nomatch h

@[simp]
theorem length_toList (s : OrdSet α) : s.toList.length = s.size := ExtTreeSet.length_toList

@[simp]
theorem isEmpty_toList (s : OrdSet α) : s.toList.isEmpty = s.isEmpty := ExtTreeSet.isEmpty_toList

@[simp]
theorem toList_filter (p : α → Bool) (s : OrdSet α) : (s.filter p).toList = s.toList.filter p :=
  ExtTreeSet.toList_filter

@[simp]
theorem contains_eq_true_iff {s : OrdSet α} {a : α} : s.contains a = true ↔ a ∈ s :=
  ExtTreeSet.contains_iff_mem

instance decidableMem (a : α) (s : OrdSet α) : Decidable (a ∈ s) :=
  decidable_of_iff _ contains_eq_true_iff

@[simp]
theorem not_mem_empty (a : α) : ¬ a ∈ (empty : OrdSet α) := ExtTreeSet.not_mem_empty

/-- The least member stands first. -/
theorem least?_eq_head? (s : OrdSet α) : s.least? = s.toList.head? := by
  simp only [least?, toList, ExtTreeSet.forIn_eq_forIn_toList]
  cases s.tree.toList <;> rfl

section Lawful

variable [LawfulEqOrd α]

@[simp]
theorem mem_toList {s : OrdSet α} {a : α} : a ∈ s.toList ↔ a ∈ s := ExtTreeSet.mem_toList

theorem isEmpty_eq_false_iff {s : OrdSet α} : s.isEmpty = false ↔ ∃ a, a ∈ s := by
  rw [← isEmpty_toList, List.isEmpty_eq_false_iff_exists_mem]
  simp only [mem_toList]

/-- Two sets with the same members are equal. -/
theorem ext {s t : OrdSet α} (h : ∀ a, a ∈ s ↔ a ∈ t) : s = t := by
  cases s
  cases t
  exact congrArg mk (ExtTreeSet.ext_mem h)

/-- Two sets with the same list of members are equal. -/
theorem toList_inj {s t : OrdSet α} : s.toList = t.toList ↔ s = t := by
  constructor
  · intro h
    exact ext fun a => by rw [← mem_toList, h, mem_toList]
  · exact fun h => h ▸ rfl

instance [DecidableEq α] : DecidableEq (OrdSet α) := fun _ _ => decidable_of_iff _ toList_inj

@[simp]
theorem mem_insert {s : OrdSet α} {a b : α} : b ∈ s.insert a ↔ b = a ∨ b ∈ s := by
  rw [mem_def, insert, ExtTreeSet.mem_insert, LawfulEqOrd.compare_eq_iff_eq, eq_comm, mem_def]

@[simp]
theorem mem_erase {s : OrdSet α} {a b : α} : b ∈ s.erase a ↔ b ≠ a ∧ b ∈ s := by
  rw [mem_def, erase, ExtTreeSet.mem_erase, Ne, LawfulEqOrd.compare_eq_iff_eq, eq_comm, mem_def]

@[simp]
theorem mem_filter {p : α → Bool} {s : OrdSet α} {a : α} :
    a ∈ s.filter p ↔ a ∈ s ∧ p a = true := by
  rw [← mem_toList, toList_filter, List.mem_filter, mem_toList]

@[simp]
theorem mem_diff {s t : OrdSet α} {a : α} : a ∈ s.diff t ↔ a ∈ s ∧ ¬ a ∈ t := by
  rw [diff, mem_filter, Bool.not_eq_true', ← Bool.not_eq_true, contains_eq_true_iff]

omit [LawfulEqOrd α] in
@[simp]
theorem mem_union {s t : OrdSet α} {a : α} : a ∈ s.union t ↔ a ∈ s ∨ a ∈ t :=
  ExtTreeSet.mem_union_iff

@[simp]
theorem mem_insertAll {s : OrdSet α} {l : List α} {b : α} :
    b ∈ s.insertAll l ↔ b ∈ l ∨ b ∈ s := by
  rw [insertAll]
  induction l generalizing s with
  | nil => simp
  | cons a l ih =>
    rw [List.foldl_cons, ih, mem_insert, List.mem_cons]
    exact ⟨fun h => h.elim (Or.inl ∘ Or.inr) (Or.imp_left Or.inl),
      fun h => h.elim (Or.elim · (Or.inr ∘ Or.inl) Or.inl) (Or.inr ∘ Or.inr)⟩

@[simp]
theorem mem_ofList {l : List α} {b : α} : b ∈ ofList l ↔ b ∈ l := by
  simp [ofList]

@[simp]
theorem mem_singleton {a b : α} : b ∈ singleton a ↔ b = a := by
  simp [singleton]

end Lawful

end OrdSet

end PolicyReach
