import PolicyReach.Proofs.Flow.Relation
import PolicyReach.Proofs.Policy.References

/-!
# Names that policies declare

Builders declare every type that they mention: the type behind an alias, the members of an attribute.

* `Policy.Assembled`: the builders have put the policy together, whether or not the references of its rules
  have run over; so have they every policy of a fixture (`assembled_ofFixture`);
* `Policy.Declared`: the aliases and the attributes of a policy stand for types that it declares;
* **`Assembled.declared`**: so it is in every policy that has been put together;
* **`Declared.expandByName_eq`**: an attribute covers the same types when its members are resolved as names;
* `Policy.Knows`: a type is declared and found under its own name, as is every type that a name resolves
  to or covers (`Declared.knows_resolved`, `Declared.knows_expanded`).
-/

namespace PolicyReach

namespace Policy

/-- Aliases and attributes stand for types that the policy declares. -/
structure Declared (p : Policy) : Prop where
  primaries : ∀ name primary, p.aliases.get? name = some primary → primary ∈ p.types
  members : ∀ name members, p.attributes.get? name = some members → ∀ t ∈ members, t.text ∈ p.types

variable {p : Policy}

theorem Declared.addType (h : p.Declared) (name : String) : (p.addType name).Declared :=
  ⟨fun other primary hp => OrdSet.mem_insert.mpr (Or.inr (h.primaries other primary hp)),
    fun name members hm t ht =>
      OrdSet.mem_insert.mpr (Or.inr (h.members name members hm t ht))⟩

theorem Declared.addAlias (h : p.Declared) (primary other : String) :
    (p.addAlias primary other).Declared := by
  refine ⟨fun name primary' hp => ?_, (h.addType primary).members⟩
  simp only [Policy.addAlias] at hp
  rw [OrdMap.get?_insert] at hp
  split at hp
  · obtain rfl := Option.some.inj hp
    exact OrdSet.mem_insert.mpr (Or.inl rfl)
  · exact OrdSet.mem_insert.mpr (Or.inr (h.primaries name primary' hp))

theorem Declared.addAttribute (h : p.Declared) (name : String) (members : List String) :
    (p.addAttribute name members).Declared := by
  have hold {text : String} (ht : text ∈ p.types) : text ∈ (p.addAttribute name members).types :=
    OrdSet.mem_insertAll.mpr (Or.inr ht)
  have hnew {t : TypeName} (ht : t ∈ OrdSet.ofList (members.map TypeName.mk)) :
      t.text ∈ (p.addAttribute name members).types := by
    obtain ⟨text, htext, rfl⟩ := List.mem_map.mp (OrdSet.mem_ofList.mp ht)
    exact OrdSet.mem_insertAll.mpr (Or.inl htext)
  refine ⟨fun other primary hp => hold (h.primaries other primary hp), fun other set hset t ht => ?_⟩
  simp only [Policy.addAttribute] at hset
  rw [OrdMap.get?_insertWith] at hset
  split at hset
  · obtain rfl := Option.some.inj hset
    cases hget : p.attributes.get? name with
    | none =>
      rw [hget] at ht
      exact hnew ht
    | some old =>
      rw [hget] at ht
      rcases OrdSet.mem_union.mp ht with ht | ht
      · exact hold (h.members name old hget t ht)
      · exact hnew ht
  · exact hold (h.members other set hset t ht)

/-! ## Policies that have been put together -/

/-- A policy that has been put together, with any number of rules. -/
inductive Assembled : Policy → Prop
  | empty : Assembled .empty
  | addType {p : Policy} (h : Assembled p) (name : String) : Assembled (p.addType name)
  | addAlias {p : Policy} (h : Assembled p) (primary other : String) :
      Assembled (p.addAlias primary other)
  | addAttribute {p : Policy} (h : Assembled p) (name : String) (members : List String) :
      Assembled (p.addAttribute name members)
  | addBoolean {p : Policy} (h : Assembled p) (name : String) (value : Bool) :
      Assembled (p.addBoolean name value)
  | setBoolean {p : Policy} (h : Assembled p) (name : String) (value : Bool) :
      Assembled (p.setBoolean name value).2
  | addAccessRule {p : Policy} (h : Assembled p) (kind : AccessKind) (source target cls : String)
      (perms : List String) (guard : Option Guard) :
      Assembled (p.addAccessRule kind source target cls perms guard).2
  | addLabelRule {p : Policy} (h : Assembled p) (kind : LabelKind)
      (source target cls default : String) (guard : Option Guard) :
      Assembled (p.addLabelRule kind source target cls default guard).2

theorem Built.assembled (h : p.Built) : p.Assembled := by
  induction h with
  | empty => exact .empty
  | addType _ name ih => exact ih.addType name
  | addAlias _ primary other ih => exact ih.addAlias primary other
  | addAttribute _ name members ih => exact ih.addAttribute name members
  | addBoolean _ name value ih => exact ih.addBoolean name value
  | setBoolean _ name value ih => exact ih.setBoolean name value
  | addAccessRule _ _ kind source target cls perms guard ih =>
    exact ih.addAccessRule kind source target cls perms guard
  | addLabelRule _ _ kind source target cls default guard ih =>
    exact ih.addLabelRule kind source target cls default guard

theorem Assembled.addTypeDecl (h : p.Assembled) (d : TypeDecl) : (p.addTypeDecl d).Assembled := by
  have haliases := List.foldlRecOn (motive := Assembled) d.aliases (fun p a => p.addAlias d.name a)
    (h.addType d.name) fun _ hp a _ => hp.addAlias d.name a
  exact List.foldlRecOn (motive := Assembled) d.attributes (fun p a => p.addAttribute a [d.name])
    haliases fun _ hp a _ => hp.addAttribute a [d.name]

theorem Assembled.addTo (h : p.Assembled) (d : RuleDecl) : (d.addTo p).Assembled := by
  cases d with
  | access kind source target cls perms guard =>
    exact h.addAccessRule kind source target cls perms guard
  | label kind source target cls default guard =>
    exact h.addLabelRule kind source target cls default guard

/-- **A policy read from a fixture** has been put together. -/
theorem assembled_ofFixture {f : Fixture} (h : ofFixture f = .ok p) : p.Assembled := by
  have htypes := List.foldlRecOn (motive := Assembled) f.types Policy.addTypeDecl .empty
    fun _ hp d _ => hp.addTypeDecl d
  have hbooleans := List.foldlRecOn (motive := Assembled) f.booleans
    (fun p b => p.addBoolean b.1 b.2) htypes fun _ hp b _ => hp.addBoolean b.1 b.2
  refine foldlM_keeps (fun p e p' hp h => ?_) hbooleans h
  obtain ⟨-, -, rfl⟩ := map_eq_ok_iff.mp h
  exact hp.addTo e.1

theorem assembled_ofFile {file : TextFile} (h : ofFile file = .ok p) : p.Assembled := by
  unfold ofFile at h
  split at h
  · unfold ofText at h
    split at h
    · unfold ofRecord at h
      split at h
      · exact assembled_ofFixture h
      · exact nomatch h
    · exact nomatch h
  · exact nomatch h

/-- **A policy that has been put together declares all types that its names stand for.** -/
theorem Assembled.declared (h : p.Assembled) : p.Declared := by
  induction h with
  | empty =>
    exact ⟨fun name _ hp => (nomatch (OrdMap.get?_empty name).symm.trans hp),
      fun name _ hm => (nomatch (OrdMap.get?_empty name).symm.trans hm)⟩
  | addType h name ih => exact ih.addType name
  | addAlias h primary other ih => exact ih.addAlias primary other
  | addAttribute h name members ih => exact ih.addAttribute name members
  | addBoolean h name value ih => exact ⟨ih.primaries, ih.members⟩
  | setBoolean h name value ih =>
    unfold Policy.setBoolean
    split
    · exact ⟨ih.primaries, ih.members⟩
    · exact ih
  | addAccessRule h kind source target cls perms guard ih => exact ⟨ih.primaries, ih.members⟩
  | addLabelRule h kind source target cls default guard ih => exact ⟨ih.primaries, ih.members⟩

theorem Built.declared (h : p.Built) : p.Declared := h.assembled.declared

/-! ## Names and the types that they stand for -/

/-- A declared type is found under its name. -/
theorem resolve_text {t : TypeName} (h : t.text ∈ p.types) : p.resolve t.text = some t := by
  unfold resolve
  rw [if_pos (OrdSet.contains_eq_true_iff.mpr h)]

/-- The concrete types that a name covers, where the members of an attribute are names again, and one that
stands for no type would be left out. -/
def expandByName (p : Policy) (symbol : String) : OrdSet TypeName :=
  match p.resolve symbol with
  | some t => .singleton t
  | none =>
    ((p.attributes.get? symbol).map fun members =>
      OrdSet.ofList (members.toList.filterMap fun t => p.resolve t.text)).getD ∅

/-- **No member of an attribute is left out**: every one is found as the type that it names. -/
theorem Declared.expandByName_eq (h : p.Declared) (symbol : String) :
    p.expandByName symbol = p.expand symbol := by
  unfold expandByName expand
  cases p.resolve symbol with
  | some t => rfl
  | none =>
    cases hmembers : p.attributes.get? symbol with
    | none => rfl
    | some members =>
      have hresolve : members.toList.filterMap (fun t => p.resolve t.text) = members.toList := by
        refine (List.filterMap_congr fun t ht => ?_).trans List.filterMap_some
        exact resolve_text (h.members symbol members hmembers t (OrdSet.mem_toList.mp ht))
      dsimp only [Option.map_some, Option.getD_some]
      rw [hresolve]
      exact OrdSet.ext fun t => OrdSet.mem_ofList.trans OrdSet.mem_toList

/-- Expanding by name in a policy that has been put together. -/
theorem Assembled.expandByName_eq (h : p.Assembled) (symbol : String) :
    p.expandByName symbol = p.expand symbol :=
  h.declared.expandByName_eq symbol

/-- What a name covers is declared. -/
theorem Declared.expanded (h : p.Declared) {name : String} {t : TypeName} (ht : t ∈ p.expand name) :
    t.text ∈ p.types := by
  unfold expand resolve at ht
  by_cases hname : p.types.contains name = true
  · rw [if_pos hname] at ht
    obtain rfl := OrdSet.mem_singleton.mp ht
    exact OrdSet.contains_eq_true_iff.mp hname
  · rw [if_neg hname] at ht
    cases halias : p.aliases.get? name with
    | some primary =>
      rw [halias] at ht
      obtain rfl := OrdSet.mem_singleton.mp ht
      exact h.primaries name primary halias
    | none =>
      rw [halias] at ht
      cases hmembers : p.attributes.get? name with
      | none =>
        rw [hmembers] at ht
        exact absurd ht (OrdSet.not_mem_empty t)
      | some members =>
        rw [hmembers] at ht
        exact h.members name members hmembers t ht

/-- The policy declares the type, and finds it under its own name. -/
def Knows (p : Policy) (t : TypeName) : Prop := t ∈ p.typeNames ∧ p.resolve t.text = some t

theorem knows_iff {t : TypeName} : p.Knows t ↔ t.text ∈ p.types := by
  refine ⟨fun h => ?_, fun h => ⟨List.mem_map.mpr ⟨t.text, OrdSet.mem_toList.mpr h, rfl⟩, resolve_text h⟩⟩
  obtain ⟨text, htext, rfl⟩ := List.mem_map.mp h.1
  exact OrdSet.mem_toList.mp htext

/-- What a policy knows depends on the types that it declares, and on nothing else of it. -/
theorem knows_congr {p' : Policy} (h : p.types = p'.types) {t : TypeName} : p.Knows t ↔ p'.Knows t := by
  rw [knows_iff, knows_iff, h]

theorem Declared.knows_expanded (h : p.Declared) {name : String} {t : TypeName}
    (ht : t ∈ p.expand name) : p.Knows t :=
  knows_iff.mpr (h.expanded ht)

theorem Declared.knows_resolved (h : p.Declared) {name : String} {t : TypeName}
    (ht : p.resolve name = some t) : p.Knows t := by
  have hexpand : t ∈ p.expand name := by
    unfold expand
    rw [ht]
    exact OrdSet.mem_singleton.mpr rfl
  exact h.knows_expanded hexpand

/-- Both types of a pair that a rule covers are declared. -/
theorem Declared.knows_covered (h : p.Declared) {r : AccessRule} {s t : TypeName}
    (hr : p.Covers r s t) : p.Knows s ∧ p.Knows t := by
  obtain ⟨hs, ht⟩ := hr
  have hs := h.knows_expanded hs
  refine ⟨hs, ?_⟩
  split at ht
  · exact ht ▸ hs
  · exact h.knows_expanded ht

end Policy

end PolicyReach
