import Mathlib.Data.List.Nodup
import PolicyReach.Policy.Fixture
import PolicyReach.Proofs.Fallible

/-!
# The references of rules

Rules get their references from one counter of the policy, in the order in which they are added. As long
as the counter does not run over (`Policy.Built`), each table lists its rules by ascending reference
(**`Built.referenced`**). The policy of a fixture is put together so (`built_ofFixture`).
-/

namespace PolicyReach

theorem RuleId.compare_eq_lt_iff {a b : RuleId} : compare a b = .lt ↔ a.raw < b.raw :=
  compareOfLessAndEq_eq_lt

namespace Policy

/-- A policy that has been put together, while there were references for its rules. -/
inductive Built : Policy → Prop
  | empty : Built .empty
  | addType {p : Policy} (h : Built p) (name : String) : Built (p.addType name)
  | addAlias {p : Policy} (h : Built p) (primary other : String) : Built (p.addAlias primary other)
  | addAttribute {p : Policy} (h : Built p) (name : String) (members : List String) :
      Built (p.addAttribute name members)
  | addBoolean {p : Policy} (h : Built p) (name : String) (value : Bool) :
      Built (p.addBoolean name value)
  | setBoolean {p : Policy} (h : Built p) (name : String) (value : Bool) :
      Built (p.setBoolean name value).2
  | addAccessRule {p : Policy} (h : Built p) (room : p.nextRule.toNat + 1 < UInt32.size)
      (kind : AccessKind) (source target cls : String) (perms : List String) (guard : Option Guard) :
      Built (p.addAccessRule kind source target cls perms guard).2
  | addLabelRule {p : Policy} (h : Built p) (room : p.nextRule.toNat + 1 < UInt32.size)
      (kind : LabelKind) (source target cls default : String) (guard : Option Guard) :
      Built (p.addLabelRule kind source target cls default guard).2

/-- The tables list their rules by ascending reference, and all references have been given out. -/
structure Referenced (p : Policy) : Prop where
  access : p.accessRules.toList.Pairwise fun r r' => r.id.raw < r'.id.raw
  labels : p.labelRules.toList.Pairwise fun r r' => r.id.raw < r'.id.raw
  access_lt : ∀ r ∈ p.accessRules.toList, r.id.raw < p.nextRule
  labels_lt : ∀ r ∈ p.labelRules.toList, r.id.raw < p.nextRule

variable {p : Policy}

theorem lt_nextRule (room : p.nextRule.toNat + 1 < UInt32.size) : p.nextRule < p.nextRule + 1 := by
  rw [UInt32.lt_iff_toNat_lt, UInt32.toNat_add]
  exact (Nat.mod_eq_of_lt room).symm ▸ Nat.lt_succ_self _

theorem Referenced.addAccessRule (h : p.Referenced) (room : p.nextRule.toNat + 1 < UInt32.size)
    (kind : AccessKind) (source target cls : String) (perms : List String) (guard : Option Guard) :
    (p.addAccessRule kind source target cls perms guard).2.Referenced := by
  have hnext := lt_nextRule room
  unfold Policy.addAccessRule
  refine ⟨?_, h.labels, fun r hr => ?_, fun r hr => UInt32.lt_trans (h.labels_lt r hr) hnext⟩
  · simp only [Array.toList_push]
    refine List.pairwise_append.mpr ⟨h.access, List.pairwise_singleton _ _, fun r hr r' hr' => ?_⟩
    obtain rfl := List.mem_singleton.mp hr'
    exact h.access_lt r hr
  · simp only [Array.toList_push, List.mem_append, List.mem_singleton] at hr
    rcases hr with hr | rfl
    · exact UInt32.lt_trans (h.access_lt r hr) hnext
    · exact hnext

theorem Referenced.addLabelRule (h : p.Referenced) (room : p.nextRule.toNat + 1 < UInt32.size)
    (kind : LabelKind) (source target cls default : String) (guard : Option Guard) :
    (p.addLabelRule kind source target cls default guard).2.Referenced := by
  have hnext := lt_nextRule room
  unfold Policy.addLabelRule
  refine ⟨h.access, ?_, fun r hr => UInt32.lt_trans (h.access_lt r hr) hnext, fun r hr => ?_⟩
  · simp only [Array.toList_push]
    refine List.pairwise_append.mpr ⟨h.labels, List.pairwise_singleton _ _, fun r hr r' hr' => ?_⟩
    obtain rfl := List.mem_singleton.mp hr'
    exact h.labels_lt r hr
  · simp only [Array.toList_push, List.mem_append, List.mem_singleton] at hr
    rcases hr with hr | rfl
    · exact UInt32.lt_trans (h.labels_lt r hr) hnext
    · exact hnext

/-- **The tables of a policy list its rules by ascending reference.** -/
theorem Built.referenced (h : p.Built) : p.Referenced := by
  induction h with
  | empty => exact ⟨.nil, .nil, fun _ => (nomatch ·), fun _ => (nomatch ·)⟩
  | addType h name ih => exact ⟨ih.access, ih.labels, ih.access_lt, ih.labels_lt⟩
  | addAlias h primary other ih => exact ⟨ih.access, ih.labels, ih.access_lt, ih.labels_lt⟩
  | addAttribute h name members ih => exact ⟨ih.access, ih.labels, ih.access_lt, ih.labels_lt⟩
  | addBoolean h name value ih => exact ⟨ih.access, ih.labels, ih.access_lt, ih.labels_lt⟩
  | setBoolean h name value ih =>
    unfold Policy.setBoolean
    split
    · exact ⟨ih.access, ih.labels, ih.access_lt, ih.labels_lt⟩
    · exact ih
  | addAccessRule h room kind source target cls perms guard ih =>
    exact ih.addAccessRule room kind source target cls perms guard
  | addLabelRule h room kind source target cls default guard ih =>
    exact ih.addLabelRule room kind source target cls default guard

/-- The references of a sublist of the labelling rules ascend. -/
theorem Referenced.labels_ascending (h : p.Referenced) {rules : List LabelRule}
    (hsub : rules.Sublist p.labelRules.toList) :
    (rules.map LabelRule.id).Pairwise fun a b => compare a b = .lt :=
  List.pairwise_map.mpr ((h.labels.sublist hsub).imp RuleId.compare_eq_lt_iff.mpr)

/-- A reference names one access rule. -/
theorem Referenced.eq_of_id (h : p.Referenced) {r r' : AccessRule} (hr : r ∈ p.accessRules)
    (hr' : r' ∈ p.accessRules) (hid : r.id = r'.id) : r = r' := by
  have hnodup : (p.accessRules.toList.map AccessRule.id).Nodup := by
    refine List.pairwise_map.mpr (h.access.imp fun {a b} hlt heq => ?_)
    rw [heq] at hlt
    exact UInt32.lt_irrefl _ hlt
  exact List.inj_on_of_nodup_map hnodup (Array.mem_toList_iff.mpr hr) (Array.mem_toList_iff.mpr hr')
    hid

/-! ## Fixtures -/

/-- Declaring a type takes no reference. -/
theorem Built.addTypeDecl {n : UInt32} (h : p.Built ∧ p.nextRule = n) (d : TypeDecl) :
    (p.addTypeDecl d).Built ∧ (p.addTypeDecl d).nextRule = n := by
  have haliases := List.foldlRecOn (motive := fun p : Policy => p.Built ∧ p.nextRule = n) d.aliases
    (fun p a => p.addAlias d.name a) ⟨h.1.addType d.name, h.2⟩
    fun _ hp a _ => ⟨hp.1.addAlias d.name a, hp.2⟩
  exact List.foldlRecOn (motive := fun p : Policy => p.Built ∧ p.nextRule = n) d.attributes
    (fun p a => p.addAttribute a [d.name]) haliases
    fun _ hp a _ => ⟨hp.1.addAttribute a [d.name], hp.2⟩

/-- Adding a rule takes one. -/
theorem Built.addTo (h : p.Built) (room : p.nextRule.toNat + 1 < UInt32.size) (d : RuleDecl) :
    (d.addTo p).Built ∧ (d.addTo p).nextRule.toNat = p.nextRule.toNat + 1 := by
  have hnext : (p.nextRule + 1).toNat = p.nextRule.toNat + 1 :=
    (UInt32.toNat_add _ _).trans (Nat.mod_eq_of_lt room)
  cases d with
  | access kind source target cls perms guard =>
    exact ⟨h.addAccessRule room kind source target cls perms guard, hnext⟩
  | label kind source target cls default guard =>
    exact ⟨h.addLabelRule room kind source target cls default guard, hnext⟩

theorem Built.addRules : ∀ {l : List (RuleDecl × Nat)} {p p' : Policy}, p.Built →
    p.nextRule.toNat + l.length < UInt32.size →
    l.foldlM (fun p e => (e.1.check p e.2).map fun _ => e.1.addTo p) p = .ok p' → p'.Built
  | [], _, _, hbuilt, _, h => Except.ok.inj h ▸ hbuilt
  | (d, i) :: l, p, p', hbuilt, hroom, h => by
    rw [List.length_cons] at hroom
    rw [List.foldlM_cons] at h
    obtain ⟨next, hnext, h⟩ := bind_eq_ok_iff.mp h
    obtain ⟨-, -, rfl⟩ := map_eq_ok_iff.mp hnext
    obtain ⟨hadded, hcount⟩ := hbuilt.addTo (by omega) d
    exact Built.addRules hadded (by omega) h

/-- **A policy read from a fixture** is put together while there are references for its rules, unless
there are as many rules as words. -/
theorem built_ofFixture {f : Fixture} (hfew : f.rules.length < UInt32.size)
    (h : ofFixture f = .ok p) : p.Built := by
  have htypes := List.foldlRecOn (motive := fun p : Policy => p.Built ∧ p.nextRule = 0) f.types
    Policy.addTypeDecl ⟨Built.empty, rfl⟩ fun _ hp d _ => Built.addTypeDecl hp d
  obtain ⟨hbuilt, hnext⟩ :=
    List.foldlRecOn (motive := fun p : Policy => p.Built ∧ p.nextRule = 0) f.booleans
      (fun p b => p.addBoolean b.1 b.2) htypes fun _ hp b _ => ⟨hp.1.addBoolean b.1 b.2, hp.2⟩
  refine Built.addRules hbuilt ?_ h
  rw [hnext, List.length_zipIdx]
  simpa using hfew

end Policy

end PolicyReach
