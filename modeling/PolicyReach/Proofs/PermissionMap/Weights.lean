import PolicyReach.PermissionMap.Reader
import PolicyReach.Proofs.Fallible
import PolicyReach.Proofs.Flow.Relation

/-!
# Weights of flows

Whatever weights a permission map is given, it keeps them within `minWeight` and `maxWeight`: a map
that is put together by insertions, or read from a text, holds no others (`Built.weight`), and so
neither do the flows scanned with it (`Built.flow_weight`).
-/

namespace PolicyReach

/-- A weight that a permission map may hold. -/
def InRange (w : UInt32) : Prop := minWeight.toNat ≤ w.toNat ∧ w.toNat ≤ maxWeight.toNat

theorem clampWeight_inRange (w : UInt32) : InRange (clampWeight w) := by
  unfold clampWeight InRange
  split
  · decide
  · rename_i hlow
    split
    · decide
    · rename_i hhigh
      exact ⟨Nat.not_lt.mp fun h => hlow (UInt32.lt_iff_toNat_lt.mpr h),
        Nat.not_lt.mp fun h => hhigh (UInt32.lt_iff_toNat_lt.mpr h)⟩

namespace PermissionMap

/-- A map that is put together by insertions. -/
inductive Built : PermissionMap → Prop
  | empty : Built .empty
  | insert {m : PermissionMap} (built : Built m) (cls perm : String) (current : Current)
      (weight : UInt32) : Built (m.insert cls perm current weight)

variable {m : PermissionMap}

theorem get?_empty (c p : String) : empty.get? c p = none := by
  unfold get?
  rw [show empty.classes.get? c = none from OrdMap.get?_empty c]
  rfl

theorem get?_insert (m : PermissionMap) (cls perm : String) (current : Current) (weight : UInt32)
    (c p : String) :
    (m.insert cls perm current weight).get? c p =
      if c = cls ∧ p = perm then some { current, weight := clampWeight weight } else m.get? c p := by
  unfold get? insert
  rw [OrdMap.get?_insert]
  by_cases hc : c = cls
  · obtain rfl := hc
    simp only [if_true, Option.bind_some, OrdMap.get?_insert, true_and]
    by_cases hp : p = perm
    · rw [if_pos hp, if_pos hp]
    · rw [if_neg hp, if_neg hp]
      cases m.classes.get? c with
      | none => exact OrdMap.get?_empty p
      | some perms => rfl
  · rw [if_neg hc, if_neg fun h => hc h.1]

/-- **A map holds no weight out of range.** -/
theorem Built.weight (hm : m.Built) {c p : String} {x : Mapping} (hx : m.get? c p = some x) :
    InRange x.weight := by
  induction hm with
  | empty => exact nomatch (get?_empty c p).symm.trans hx
  | insert _ cls perm current weight ih =>
    rw [get?_insert] at hx
    split at hx
    · obtain rfl := Option.some.inj hx
      exact clampWeight_inRange weight
    · exact ih hx

/-! ## Maps that are read -/

theorem Built.header {s s' : MapReading} {l : ContentLine} (hs : s.map.Built)
    (h : s.header l = .ok s') : s'.map.Built := by
  obtain ⟨-, -, h⟩ := bind_eq_ok_iff.mp h
  split at h
  · split at h
    · obtain rfl := Except.ok.inj h
      exact hs
    · exact nomatch h
  · exact nomatch h

theorem Built.entry {s s' : MapReading} {l : ContentLine} (hs : s.map.Built)
    (h : s.entry l = .ok s') : s'.map.Built := by
  unfold MapReading.entry at h
  split at h
  · split at h
    · obtain rfl := Except.ok.inj h
      exact hs.insert ..
    · exact nomatch h
  · exact nomatch h

/-- **A map that is read is put together by insertions.** -/
theorem Built.ofLines {l : List ContentLine} (h : PermissionMap.ofLines l = .ok m) : m.Built := by
  cases l with
  | nil => exact Except.ok.inj h ▸ .empty
  | cons first rest =>
    obtain ⟨declared, -, h⟩ := bind_eq_ok_iff.mp h
    obtain ⟨s, hs, h⟩ := bind_eq_ok_iff.mp h
    obtain ⟨-, -, h⟩ := bind_eq_ok_iff.mp h
    have hbuilt : s.map.Built := by
      refine foldlM_keeps (P := fun s : MapReading => s.map.Built) (fun s line s' hs h => ?_) .empty hs
      unfold MapReading.step at h
      split at h
      · exact hs.header h
      · exact hs.entry h
    split at h
    · exact Except.ok.inj h ▸ hbuilt
    · exact nomatch h

theorem Built.ofFile {file : TextFile} (h : PermissionMap.ofFile file = .ok m) : m.Built := by
  unfold PermissionMap.ofFile at h
  split at h
  · exact Built.ofLines h
  · exact nomatch h

theorem built_sample : PermissionMap.sample.Built := (Built.empty.insert ..).insert ..

/-! ## Flows -/

/-- **A flow is as heavy as one of the permissions it uses.** -/
theorem Built.flow_weight (hm : m.Built) {p : Policy} {criteria : Criteria} {a b : TypeName} {e : Edge}
    (he : (p.flows m criteria).edge? a b = some e) : InRange e.weight := by
  obtain ⟨r, perm, x, hby, hw⟩ := Policy.contributes_weight he
  exact hw ▸ hm.weight hby.mapped

end PermissionMap

end PolicyReach
