/-!
# Orders taken from a key

Records are ordered by a key that determines them: a string, a number, or a pair of keys compared
one after the other (`KeyPair`). `transOrd_of_key` and `lawfulEqOrd_of_key` carry the laws of the
key's order over to the records.
-/

namespace PolicyReach

open Std

variable {α κ : Type} [Ord α] [Ord κ]

theorem transOrd_of_key [TransOrd κ] (f : α → κ) (h : ∀ a b : α, compare a b = compare (f a) (f b)) :
    TransOrd α where
  eq_swap {a b} := by
    rw [h, h]
    exact OrientedCmp.eq_swap
  isLE_trans {a b c} h1 h2 := by
    rw [h] at *
    exact TransCmp.isLE_trans h1 h2

theorem lawfulEqOrd_of_key [LawfulEqOrd κ] (f : α → κ)
    (h : ∀ a b : α, compare a b = compare (f a) (f b)) (inj : ∀ a b, f a = f b → a = b) :
    LawfulEqOrd α where
  compare_self {a} := by
    rw [h]
    exact ReflCmp.compare_self
  eq_of_compare {a b} e := by
    rw [h] at e
    exact inj a b (LawfulEqCmp.eq_of_compare e)

/-- Two keys, the second one compared where the first ones are equal. -/
structure KeyPair (α β : Type) where
  first : α
  second : β
  deriving DecidableEq

namespace KeyPair

variable {β : Type} [Ord β]

instance : Ord (KeyPair α β) :=
  ⟨fun p q => (compare p.first q.first).then (compare p.second q.second)⟩

theorem compare_def (p q : KeyPair α β) :
    compare p q = (compare p.first q.first).then (compare p.second q.second) := rfl

theorem isLE_first {p q : KeyPair α β} (h : (compare p q).isLE = true) :
    (compare p.first q.first).isLE = true := by
  rw [compare_def, Ordering.isLE_then_iff_or] at h
  rcases h with hlt | ⟨heq, -⟩
  · rw [hlt]
    rfl
  · rw [heq]
    rfl

instance [TransOrd α] [TransOrd β] : TransOrd (KeyPair α β) where
  eq_swap {p q} := by
    rw [compare_def, compare_def, Ordering.swap_then]
    exact congr (congrArg _ OrientedCmp.eq_swap) OrientedCmp.eq_swap
  isLE_trans {p q r} h1 h2 := by
    rw [compare_def, Ordering.isLE_then_iff_or] at *
    rcases h1 with h1 | ⟨h1, h1'⟩ <;> rcases h2 with h2 | ⟨h2, h2'⟩
    · exact Or.inl (TransCmp.lt_trans h1 h2)
    · exact Or.inl (TransCmp.lt_of_lt_of_eq h1 h2)
    · exact Or.inl (TransCmp.lt_of_eq_of_lt h1 h2)
    · exact Or.inr ⟨TransCmp.eq_trans h1 h2, TransCmp.isLE_trans h1' h2'⟩

instance [LawfulEqOrd α] [LawfulEqOrd β] : LawfulEqOrd (KeyPair α β) where
  compare_self {p} := by
    rw [compare_def, Ordering.then_eq_eq]
    exact ⟨ReflCmp.compare_self, ReflCmp.compare_self⟩
  eq_of_compare {p q} h := by
    rw [compare_def, Ordering.then_eq_eq] at h
    cases p
    cases q
    cases LawfulEqCmp.eq_of_compare h.1
    cases LawfulEqCmp.eq_of_compare h.2
    rfl

end KeyPair

end PolicyReach
