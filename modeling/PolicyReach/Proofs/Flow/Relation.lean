import Mathlib.Data.List.Perm.Basic
import PolicyReach.Flow.Scan
import PolicyReach.Proofs.Flow.Merge

/-!
# The flow relation of a policy

`Policy.Contributes` says, without any scan, when a rule lets information flow from one type to
another and how heavy that is: the rule is in force, it lists a permission that the criteria admit
and the permission map gives a direction, and it covers the two types in that direction. The graph
`Policy.flows` is exactly this relation.

* `outward_fold`, `inward_fold`: the two weights of a rule are least weights over its permissions;
* `mem_ruleEdges`: the edges a rule gives, each with such a least weight;
* **`flows_exact`**: an edge leads from `a` to `b` iff some rule contributes and `a ≠ b`, with the
  least weight among all contributions and exactly the rules that contribute, in whatever order
  rules, permissions and pairs are taken.
-/

namespace PolicyReach

/-! ## What the scan should find -/

/-- A permission counts: it is in the set, or the set is empty. -/
def Criteria.Admits (c : Criteria) (cls perm : String) : Prop :=
  (∀ q, q ∉ c.classPerms) ∨ ⟨cls, perm⟩ ∈ c.classPerms

namespace Policy

/-- The rule's source covers `a`, and its target covers `b`; the target `self` is the source type
itself. -/
def Covers (p : Policy) (r : AccessRule) (a b : TypeName) : Prop :=
  a ∈ p.expand r.source ∧ if r.target = selfTarget then b = a else b ∈ p.expand r.target

/-- An allow rule of the policy that no boolean switches off. -/
structure InForce (p : Policy) (r : AccessRule) : Prop where
  held : r ∈ p.accessRules
  allows : r.kind = .allow
  guard : ∀ g, r.guard = some g → p.booleans.get? g.boolean = some g.branch

/-- With permission `perm`, mapped to `m`, rule `r` lets information flow from `a` to `b`. -/
structure ContributesBy (p : Policy) (permissions : PermissionMap) (criteria : Criteria)
    (r : AccessRule) (a b : TypeName) (perm : String) (m : Mapping) : Prop where
  inForce : p.InForce r
  listed : perm ∈ r.perms
  admitted : criteria.Admits r.cls perm
  mapped : permissions.get? r.cls perm = some m
  /-- Out of the subject, or into it. -/
  flows : m.current.flowsOut = true ∧ p.Covers r a b ∨ m.current.flowsIn = true ∧ p.Covers r b a

/-- Rule `r` lets information flow from `a` to `b` with weight `w`. -/
def Contributes (p : Policy) (permissions : PermissionMap) (criteria : Criteria) (r : AccessRule)
    (a b : TypeName) (w : UInt32) : Prop :=
  ∃ perm m, p.ContributesBy permissions criteria r a b perm m ∧ m.weight = w

/-- The flows of a policy, found by taking the rules, the permissions of each rule and the pairs of
types of each rule in some order. -/
def flowsInOrder (permissions : PermissionMap) (criteria : Criteria) (rules : List AccessRule)
    (perms : AccessRule → List String) (pairs : AccessRule → List (TypeName × TypeName)) :
    FlowGraph :=
  (FlowGraph.empty criteria).insertEdges (rules.flatMap fun r =>
    let c := (((perms r).filter fun p => criteria.admits r.cls p).filterMap fun p =>
      permissions.flow? r.cls p).foldl Contribution.count {}
    if c = {} then [] else (pairs r).flatMap fun pair => c.edges r.id pair.1 pair.2)

end Policy

/-! ## Coverage, force and admission -/

theorem Criteria.admits_iff {c : Criteria} {cls perm : String} :
    c.admits cls perm = true ↔ c.Admits cls perm := by
  unfold admits Admits
  rw [Bool.or_eq_true, OrdSet.contains_eq_true_iff, ← OrdSet.isEmpty_toList, List.isEmpty_iff,
    List.eq_nil_iff_forall_not_mem]
  simp only [OrdSet.mem_toList]

theorem PermissionMap.flow?_eq_some_iff {m : PermissionMap} {cls perm : String} {x : Mapping} :
    m.flow? cls perm = some x ↔ m.get? cls perm = some x ∧ x.current ≠ .none := by
  unfold flow?
  rw [Option.filter_eq_some_iff, bne_iff_ne]

namespace Policy

variable {p : Policy}

theorem mem_rulePairs_fields {source target : String} {a b : TypeName} :
    (a, b) ∈ p.rulePairs source target ↔
      a ∈ p.expand source ∧ if target = selfTarget then b = a else b ∈ p.expand target := by
  unfold rulePairs
  simp only
  by_cases hself : target = selfTarget
  · simp only [if_pos hself, List.mem_map, OrdSet.mem_toList, Prod.mk.injEq]
    constructor
    · rintro ⟨s, hs, rfl, rfl⟩
      exact ⟨hs, rfl⟩
    · rintro ⟨ha, rfl⟩
      exact ⟨b, ha, rfl, rfl⟩
  · simp only [if_neg hself, List.mem_flatMap, List.mem_map, OrdSet.mem_toList, Prod.mk.injEq]
    constructor
    · rintro ⟨s, hs, t, ht, rfl, rfl⟩
      exact ⟨hs, ht⟩
    · rintro ⟨ha, hb⟩
      exact ⟨a, ha, b, hb, rfl, rfl⟩

theorem mem_rulePairs {r : AccessRule} {a b : TypeName} :
    (a, b) ∈ p.rulePairs r.source r.target ↔ p.Covers r a b :=
  mem_rulePairs_fields

theorem isActive_iff {g : Option Guard} :
    p.isActive g = true ↔ ∀ x, g = some x → p.booleans.get? x.boolean = some x.branch := by
  cases g with
  | none => simp [isActive]
  | some x => simp [isActive, boolean?]

theorem mem_activeAllowRules {r : AccessRule} : r ∈ p.activeAllowRules ↔ p.InForce r := by
  unfold activeAllowRules
  rw [List.mem_filter, Array.mem_toList_iff, Bool.and_eq_true, beq_iff_eq, isActive_iff]
  exact ⟨fun ⟨held, allows, guard⟩ => ⟨held, allows, guard⟩,
    fun h => ⟨h.held, h.allows, h.guard⟩⟩

end Policy

/-! ## What one rule contributes -/

namespace Contribution

theorem lighter_fold (old : Option UInt32) (ws : List UInt32) :
    ws.foldl lighter old = (old.toList ++ ws).min? := by
  induction ws generalizing old with
  | nil => cases old <;> rfl
  | cons w ws ih =>
    rw [List.foldl_cons, ih]
    cases old with
    | none => rfl
    | some x => rfl

/-- The weight from source to target is the least among the mappings that flow outward. -/
theorem outward_fold (l : List Mapping) (c : Contribution) :
    (l.foldl count c).outward =
      (c.outward.toList ++ (l.filter fun m => m.current.flowsOut).map Mapping.weight).min? := by
  rw [← lighter_fold]
  induction l generalizing c with
  | nil => rfl
  | cons m l ih =>
    rw [List.foldl_cons, ih, List.filter_cons]
    by_cases h : m.current.flowsOut = true <;> simp [count, h]

/-- The weight from target to source is the least among the mappings that flow inward. -/
theorem inward_fold (l : List Mapping) (c : Contribution) :
    (l.foldl count c).inward =
      (c.inward.toList ++ (l.filter fun m => m.current.flowsIn).map Mapping.weight).min? := by
  rw [← lighter_fold]
  induction l generalizing c with
  | nil => rfl
  | cons m l ih =>
    rw [List.foldl_cons, ih, List.filter_cons]
    by_cases h : m.current.flowsIn = true <;> simp [count, h]

theorem lighter_comm (old : Option UInt32) (v w : UInt32) :
    lighter (lighter old v) w = lighter (lighter old w) v := by
  unfold lighter
  refine congrArg some (UInt32.toNat_inj.mp ?_)
  cases old with
  | none =>
    simp only [Option.elim_some, Option.elim_none, UInt32.toNat_min]
    exact Nat.min_comm _ _
  | some x =>
    simp only [Option.elim_some, UInt32.toNat_min]
    omega

theorem count_comm (c : Contribution) (m n : Mapping) :
    (c.count m).count n = (c.count n).count m := by
  unfold count
  simp only [mk.injEq]
  constructor
  · by_cases hm : m.current.flowsOut = true <;> by_cases hn : n.current.flowsOut = true <;>
      simp [hm, hn, lighter_comm c.outward m.weight]
  · by_cases hm : m.current.flowsIn = true <;> by_cases hn : n.current.flowsIn = true <;>
      simp [hm, hn, lighter_comm c.inward m.weight]

/-- The mappings that count among a rule's permissions. -/
def mappings (permissions : PermissionMap) (criteria : Criteria) (cls : String)
    (perms : List String) : List Mapping :=
  (perms.filter fun p => criteria.admits cls p).filterMap fun p => permissions.flow? cls p

theorem mem_mappings {permissions : PermissionMap} {criteria : Criteria} {r : AccessRule}
    {m : Mapping} :
    m ∈ mappings permissions criteria r.cls r.perms.toList ↔
      m.current ≠ .none ∧ ∃ perm ∈ r.perms, criteria.Admits r.cls perm ∧
        permissions.get? r.cls perm = some m := by
  unfold mappings
  simp only [List.mem_filterMap, List.mem_filter, OrdSet.mem_toList, Criteria.admits_iff,
    PermissionMap.flow?_eq_some_iff]
  constructor
  · rintro ⟨perm, ⟨hp, ha⟩, hm, hn⟩
    exact ⟨hn, perm, hp, ha, hm⟩
  · rintro ⟨hn, perm, hp, ha, hm⟩
    exact ⟨perm, ⟨hp, ha⟩, hm, hn⟩

theorem mem_edges_iff {c : Contribution} {id : RuleId} {s t : TypeName} {e : Edge} :
    e ∈ c.edges id s t ↔ s ≠ t ∧
      ((∃ w, c.outward = some w ∧ e = .single s t w id) ∨
        ∃ w, c.inward = some w ∧ e = .single t s w id) := by
  unfold edges
  by_cases h : s = t
  · simp [h]
  · rw [if_neg h, List.mem_append, Option.mem_toList, Option.mem_toList, Option.map_eq_some_iff,
      Option.map_eq_some_iff]
    simp only [ne_eq, h, not_false_eq_true, true_and, eq_comm (a := e)]

end Contribution

/-! ## The edges of one rule -/

namespace Policy

variable {p : Policy} {permissions : PermissionMap} {criteria : Criteria}

theorem mem_ruleEdges_iff {r : AccessRule} {e : Edge} :
    e ∈ p.ruleEdges permissions criteria r ↔
      ∃ s t, p.Covers r s t ∧ e ∈ (Contribution.ofRule permissions criteria r).edges r.id s t := by
  unfold ruleEdges
  simp only
  split
  · rename_i h
    simp [h, Contribution.edges]
  · simp only [List.mem_flatMap, Prod.exists, mem_rulePairs]

/-- A weight of a rule is least among the mappings of a direction: it is the weight of one of them,
and none is lighter. -/
theorem min?_weights {l : List Mapping} {d : Mapping → Bool} {w : UInt32} :
    (([] : List UInt32) ++ (l.filter d).map Mapping.weight).min? = some w ↔
      (∃ m ∈ l, d m = true ∧ m.weight = w) ∧ ∀ m ∈ l, d m = true → w ≤ m.weight := by
  rw [List.nil_append, List.min?_eq_some_iff]
  simp only [List.mem_map, List.mem_filter, and_assoc]
  refine and_congr_right fun _ => ⟨fun h m hm hd => h _ ⟨m, hm, hd, rfl⟩, ?_⟩
  rintro h _ ⟨m, hm, hd, rfl⟩
  exact h m hm hd

theorem exists_min?_weights {l : List Mapping} {d : Mapping → Bool} {m : Mapping} (hm : m ∈ l)
    (hd : d m = true) :
    ∃ w, (([] : List UInt32) ++ (l.filter d).map Mapping.weight).min? = some w ∧ w ≤ m.weight := by
  cases h : (([] : List UInt32) ++ (l.filter d).map Mapping.weight).min? with
  | none =>
    rw [List.nil_append, List.min?_eq_none_iff, List.map_eq_nil_iff] at h
    exact absurd (h ▸ List.mem_filter.mpr ⟨hm, hd⟩) List.not_mem_nil
  | some w => exact ⟨w, rfl, (min?_weights.mp h).2 m hm hd⟩

/-- The edge of a rule from `a` to `b` has the weight of one of the rule's contributions. -/
theorem contributes_of_mem_ruleEdges {r : AccessRule} {e : Edge} (hr : p.InForce r)
    (he : e ∈ p.ruleEdges permissions criteria r) :
    p.Contributes permissions criteria r e.source e.target e.weight ∧ e.source ≠ e.target ∧
      ∀ id, id ∈ e.rules ↔ id = r.id := by
  obtain ⟨s, t, hc, he⟩ := mem_ruleEdges_iff.mp he
  obtain ⟨hne, h⟩ := Contribution.mem_edges_iff.mp he
  rcases h with ⟨w, hw, rfl⟩ | ⟨w, hw, rfl⟩
  · obtain ⟨⟨m, hm, hd, hmw⟩, -⟩ := min?_weights.mp ((Contribution.outward_fold _ _).symm.trans hw)
    obtain ⟨-, perm, hp, ha, hget⟩ := Contribution.mem_mappings.mp hm
    exact ⟨⟨perm, m, ⟨hr, hp, ha, hget, Or.inl ⟨hd, hc⟩⟩, hmw⟩, hne,
      fun id => OrdSet.mem_singleton⟩
  · obtain ⟨⟨m, hm, hd, hmw⟩, -⟩ := min?_weights.mp ((Contribution.inward_fold _ _).symm.trans hw)
    obtain ⟨-, perm, hp, ha, hget⟩ := Contribution.mem_mappings.mp hm
    exact ⟨⟨perm, m, ⟨hr, hp, ha, hget, Or.inr ⟨hd, hc⟩⟩, hmw⟩, hne.symm,
      fun id => OrdSet.mem_singleton⟩

/-- A contribution of a rule between different types is in an edge of the rule that is no heavier. -/
theorem mem_ruleEdges_of_contributes {r : AccessRule} {a b : TypeName} {w : UInt32} (hne : a ≠ b)
    (h : p.Contributes permissions criteria r a b w) :
    ∃ e ∈ p.ruleEdges permissions criteria r, e.source = a ∧ e.target = b ∧ e.weight ≤ w := by
  obtain ⟨perm, m, hby, rfl⟩ := h
  have hm : m ∈ Contribution.mappings permissions criteria r.cls r.perms.toList := by
    refine Contribution.mem_mappings.mpr ⟨fun hn => ?_, perm, hby.listed, hby.admitted, hby.mapped⟩
    rcases hby.flows with ⟨hf, -⟩ | ⟨hf, -⟩
    · rw [hn] at hf
      exact absurd hf (by decide)
    · rw [hn] at hf
      exact absurd hf (by decide)
  rcases hby.flows with ⟨hd, hc⟩ | ⟨hd, hc⟩
  · obtain ⟨w, hw, hle⟩ := exists_min?_weights (d := fun m => m.current.flowsOut) hm hd
    refine ⟨.single a b w r.id, mem_ruleEdges_iff.mpr ⟨a, b, hc, ?_⟩, rfl, rfl, hle⟩
    exact Contribution.mem_edges_iff.mpr
      ⟨hne, Or.inl ⟨w, (Contribution.outward_fold _ _).trans hw, rfl⟩⟩
  · obtain ⟨w, hw, hle⟩ := exists_min?_weights (d := fun m => m.current.flowsIn) hm hd
    refine ⟨.single a b w r.id, mem_ruleEdges_iff.mpr ⟨b, a, hc, ?_⟩, rfl, rfl, hle⟩
    exact Contribution.mem_edges_iff.mpr
      ⟨hne.symm, Or.inr ⟨w, (Contribution.inward_fold _ _).trans hw, rfl⟩⟩

/-! ## The graph is the relation -/

/-- The edges that all rules in force give, before they are merged. -/
def allRuleEdges (p : Policy) (permissions : PermissionMap) (criteria : Criteria) : List Edge :=
  p.activeAllowRules.flatMap (p.ruleEdges permissions criteria)

theorem mem_allRuleEdges {e : Edge} :
    e ∈ p.allRuleEdges permissions criteria ↔
      ∃ r, p.InForce r ∧ e ∈ p.ruleEdges permissions criteria r := by
  unfold allRuleEdges
  simp only [List.mem_flatMap, mem_activeAllowRules]

@[simp]
theorem flows_criteria (p : Policy) (permissions : PermissionMap) (criteria : Criteria) :
    (p.flows permissions criteria).criteria = criteria :=
  FlowGraph.insertEdges_criteria _ _

theorem edge?_flows (a b : TypeName) :
    (p.flows permissions criteria).edge? a b =
      Edge.mergeOnto none ((p.allRuleEdges permissions criteria).filter (Edge.joins .forward a b)) := by
  show ((FlowGraph.empty criteria).insertEdges _).arc? .forward a b = _
  rw [FlowGraph.arc?_insertEdges, FlowGraph.arc?_empty]
  rfl

theorem exists_edge_iff (a b : TypeName) :
    (∃ e, (p.flows permissions criteria).edge? a b = some e) ↔
      a ≠ b ∧ ∃ r w, p.Contributes permissions criteria r a b w := by
  rw [← Option.isSome_iff_exists, edge?_flows, Edge.isSome_mergeOnto, Option.isSome_none,
    Bool.false_or, Bool.not_eq_true', ← Bool.not_eq_true, List.isEmpty_iff,
    List.eq_nil_iff_forall_not_mem]
  push Not
  simp only [List.mem_filter, Edge.joins_forward_iff, mem_allRuleEdges]
  constructor
  · rintro ⟨e, ⟨r, hr, he⟩, rfl, rfl⟩
    obtain ⟨hc, hne, -⟩ := contributes_of_mem_ruleEdges hr he
    exact ⟨hne, r, e.weight, hc⟩
  · rintro ⟨hne, r, w, hc⟩
    obtain ⟨e, he, hs, ht, -⟩ := mem_ruleEdges_of_contributes hne hc
    obtain ⟨perm, m, hby, -⟩ := hc
    exact ⟨e, ⟨r, hby.inForce, he⟩, hs, ht⟩

theorem merges_of_edge? {a b : TypeName} {e : Edge}
    (h : (p.flows permissions criteria).edge? a b = some e) :
    Edge.Merges a b ((p.allRuleEdges permissions criteria).filter (Edge.joins .forward a b)) e := by
  rw [edge?_flows] at h
  exact Edge.merges_of_mergeOnto
    (fun x hx => Edge.joins_forward_iff.mp (List.mem_filter.mp hx).2) h

/-- Some contribution is as light as the edge. -/
theorem contributes_weight {a b : TypeName} {e : Edge}
    (he : (p.flows permissions criteria).edge? a b = some e) :
    ∃ r, p.Contributes permissions criteria r a b e.weight := by
  obtain ⟨x, hx, hw⟩ := (merges_of_edge? he).attained
  obtain ⟨hall, hj⟩ := List.mem_filter.mp hx
  obtain ⟨rfl, rfl⟩ := Edge.joins_forward_iff.mp hj
  obtain ⟨r, hr, hxr⟩ := mem_allRuleEdges.mp hall
  exact ⟨r, hw ▸ (contributes_of_mem_ruleEdges hr hxr).1⟩

theorem flowsInOrder_eq (rules : List AccessRule) (perms : AccessRule → List String)
    (pairs : AccessRule → List (TypeName × TypeName)) (hrules : rules.Perm p.activeAllowRules)
    (hperms : ∀ r, (perms r).Perm r.perms.toList)
    (hpairs : ∀ r, (pairs r).Perm (p.rulePairs r.source r.target)) :
    flowsInOrder permissions criteria rules perms pairs = p.flows permissions criteria := by
  refine FlowGraph.insertEdges_perm _ (hrules.flatMap fun r _ => ?_)
  have hcount : (Contribution.mappings permissions criteria r.cls (perms r)).foldl
      Contribution.count {} = Contribution.ofRule permissions criteria r :=
    (((hperms r).filter _).filterMap _).foldl_eq' (fun m _ n _ c => Contribution.count_comm c m n) _
  unfold ruleEdges
  unfold Contribution.mappings at hcount
  simp only [hcount]
  split
  · exact List.Perm.refl _
  · exact (hpairs r).flatMap_right _

/-- **The scanned graph is exactly the flow relation of the policy.** -/
theorem flows_exact (p : Policy) (permissions : PermissionMap) (criteria : Criteria) :
    (∀ a b, (∃ e, (p.flows permissions criteria).edge? a b = some e) ↔
      a ≠ b ∧ ∃ r w, p.Contributes permissions criteria r a b w) ∧
    (∀ a b e, (p.flows permissions criteria).edge? a b = some e →
      e.source = a ∧ e.target = b ∧
      (∃ r, p.Contributes permissions criteria r a b e.weight) ∧
      (∀ r w, p.Contributes permissions criteria r a b w → e.weight ≤ w) ∧
      ∀ id, id ∈ e.rules ↔ ∃ r w, p.Contributes permissions criteria r a b w ∧ r.id = id) ∧
    (∀ e, e ∈ (p.flows permissions criteria).edges ↔
      (p.flows permissions criteria).edge? e.source e.target = some e) ∧
    ∀ (rules : List AccessRule) (perms : AccessRule → List String)
      (pairs : AccessRule → List (TypeName × TypeName)), rules.Perm p.activeAllowRules →
      (∀ r, (perms r).Perm r.perms.toList) →
      (∀ r, (pairs r).Perm (p.rulePairs r.source r.target)) →
      flowsInOrder permissions criteria rules perms pairs = p.flows permissions criteria := by
  refine ⟨exists_edge_iff, fun a b e he => ?_, fun e => ?_,
    fun rules perms pairs => flowsInOrder_eq rules perms pairs⟩
  · have hm := merges_of_edge? he
    have hne : a ≠ b := ((exists_edge_iff a b).mp ⟨e, he⟩).1
    refine ⟨hm.source, hm.target, contributes_weight he, fun r w hc => ?_, fun id => ?_⟩
    · obtain ⟨x, hx, hs, ht, hle⟩ := mem_ruleEdges_of_contributes hne hc
      obtain ⟨perm, m, hby, -⟩ := hc
      have hmem : x ∈ (p.allRuleEdges permissions criteria).filter (Edge.joins .forward a b) :=
        List.mem_filter.mpr
          ⟨mem_allRuleEdges.mpr ⟨r, hby.inForce, hx⟩, Edge.joins_forward_iff.mpr ⟨hs, ht⟩⟩
      exact UInt32.le_trans (hm.least x hmem) hle
    · rw [hm.rules]
      constructor
      · rintro ⟨x, hx, hid⟩
        obtain ⟨hall, hj⟩ := List.mem_filter.mp hx
        obtain ⟨rfl, rfl⟩ := Edge.joins_forward_iff.mp hj
        obtain ⟨r, hr, hxr⟩ := mem_allRuleEdges.mp hall
        obtain ⟨hc, -, hrules⟩ := contributes_of_mem_ruleEdges hr hxr
        exact ⟨r, x.weight, hc, ((hrules id).mp hid).symm⟩
      · rintro ⟨r, w, hc, rfl⟩
        obtain ⟨x, hx, hs, ht, -⟩ := mem_ruleEdges_of_contributes hne hc
        obtain ⟨perm, m, hby, -⟩ := hc
        refine ⟨x, List.mem_filter.mpr
          ⟨mem_allRuleEdges.mpr ⟨r, hby.inForce, hx⟩, Edge.joins_forward_iff.mpr ⟨hs, ht⟩⟩, ?_⟩
        exact ((contributes_of_mem_ruleEdges hby.inForce hx).2.2 r.id).mpr rfl
  · rw [FlowGraph.mem_edges]
    constructor
    · rintro ⟨a, b, h⟩
      have hm := merges_of_edge? h
      rw [hm.source, hm.target]
      exact h
    · exact fun h => ⟨e.source, e.target, h⟩

end Policy

/-- Three types with a light way from `a` over `b` to `c`, and a heavy one from `a` straight to `c`
while the boolean `net` is on. -/
def Policy.sample : Policy :=
  let p := (((Policy.empty.addType "a").addType "b").addType "c").addBoolean "net" true
  let p := (p.addAccessRule .allow "a" "b" "file" ["write"] none).2
  let p := (p.addAccessRule .allow "b" "c" "file" ["write"] none).2
  (p.addAccessRule .allow "a" "c" "file" ["append"] (some ⟨"net", true⟩)).2

/-- The permissions that the rules of `Policy.sample` use. -/
def PermissionMap.sample : PermissionMap :=
  (PermissionMap.empty.insert "file" "write" .write 2).insert "file" "append" .write 9

example :
    (Policy.sample.flows .sample ⟨∅, .direct, none⟩).edges =
      [.single ⟨"a"⟩ ⟨"b"⟩ 2 ⟨0⟩, .single ⟨"a"⟩ ⟨"c"⟩ 9 ⟨2⟩, .single ⟨"b"⟩ ⟨"c"⟩ 2 ⟨1⟩] := by
  decide +kernel

end PolicyReach
