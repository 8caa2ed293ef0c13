import PolicyReach.Proofs.Flow.Results
import PolicyReach.Proofs.Session.Calls

/-!
# Analyses over many hops are exact

An analysis that succeeds gives the lightest flows between its start type and every other type, over
the flows of the policy, through the types that its query names (`analyzeReach_exact`).
-/

namespace PolicyReach

/-- What a query lets flows pass through: the types that its names cover, or all if it names none. -/
def ReachQuery.Allows (q : ReachQuery) (p : Policy) (t : TypeName) : Prop :=
  ∀ names, q.intermediate = some names → ∃ name ∈ names, t ∈ p.expand name

/-- What a query is scanned for, when its names cover `types`. -/
def ReachQuery.criteria (q : ReachQuery) (types : Option (OrdSet TypeName)) : Criteria :=
  { classPerms := q.classPerms, scope := .transitive q.direction, intermediate := types }

theorem Policy.mem_expandAll {p : Policy} {names : List String} {types : OrdSet TypeName}
    (h : p.expandAll names = .ok types) {t : TypeName} :
    t ∈ types ↔ ∃ name ∈ names, t ∈ p.expand name := by
  have hfold : ∀ {names : List String} {seed types : OrdSet TypeName},
      names.foldlM (fun types name =>
        let covered := p.expand name
        if covered.isEmpty then .error (.unknownType name) else .ok (types.union covered)) seed =
          (.ok types : Except AnalysisError _) →
        (t ∈ types ↔ t ∈ seed ∨ ∃ name ∈ names, t ∈ p.expand name) := by
    intro names
    induction names with
    | nil =>
      intro seed types h
      obtain rfl := Except.ok.inj h
      simp
    | cons name names ih =>
      intro seed types h
      rw [List.foldlM_cons] at h
      obtain ⟨next, hnext, h⟩ := bind_eq_ok_iff.mp h
      simp only at hnext
      split at hnext
      · cases hnext
      · obtain rfl := Except.ok.inj hnext
        rw [ih h, OrdSet.mem_union, or_assoc]
        simp only [List.mem_cons, exists_eq_or_imp]
  rw [hfold h]
  exact or_iff_right (OrdSet.not_mem_empty t)

namespace FlowContext

variable {c : FlowContext}

/-- The types that a walk may pass through are those that the query allows. -/
theorem isPassable_iff {q : ReachQuery} {types : Option (OrdSet TypeName)}
    (h : c.intermediate q = .ok types) {t : TypeName} :
    (q.criteria types).isPassable t = true ↔ q.Allows c.policy t := by
  unfold intermediate at h
  unfold ReachQuery.Allows Criteria.isPassable ReachQuery.criteria
  cases hnames : q.intermediate with
  | none =>
    rw [hnames] at h
    obtain rfl := Except.ok.inj h
    exact ⟨fun _ _ hsome => (nomatch hsome), fun _ => rfl⟩
  | some names =>
    rw [hnames] at h
    obtain ⟨set, hset, rfl⟩ := map_eq_ok_iff.mp h
    simp only [OrdSet.contains_eq_true_iff, Policy.mem_expandAll hset, OrdSet.mem_toList,
      Option.some.injEq, forall_eq']

/-- What a session over many hops begins with are the lightest flows of the policy. -/
theorem lightestFlows_of_begin {r r' : FlowRegistry} {m : PermissionMap} {criteria : Criteria}
    {direction : ReachDirection} {filter : Option NameFilter} {start : TypeName}
    {results : List FlowResult} {h : Handle} (hbuilt : m.Built)
    (hlimit : c.config.maxGraphEdges ≤ FlowGraph.edgeBound)
    (hscope : criteria.scope = .transitive direction)
    (hbegin : c.begin r m criteria (.reach direction) filter start = .ok ((results, h), r')) :
    (c.policy.flows m criteria).LightestFlows direction.orientation direction.flowDirection start
      (fun t => NameFilter.passes filter c.policy t = true) results := by
  obtain ⟨graph, hgraph, rfl, -⟩ := begin_eq_ok hbegin
  have hindex := FlowGraph.index_of_built hbuilt c.policy criteria
  rw [← c.policy.flows_criteria m criteria] at hscope
  obtain ⟨hgrown, hroot, -⟩ :=
    FlowGraph.grow_grown hindex.sound (FlowGraph.grown_empty _ _) hgraph
  exact hgrown.lightestFlows hindex hscope hroot
    (FlowGraph.reachResults_exact hgrown.sound (hgrown.measured hindex hlimit) _ _ _ _)

/-- **An analysis over many hops is exact.** Its results, ascending by the types found, are the
lightest flows to all types other than its start type that pass its filter, each along a walk that
repeats no type and passes through types that the query allows only. -/
theorem analyzeReach_exact {r r' : FlowRegistry} {q : ReachQuery} {m : PermissionMap}
    {results : List FlowResult} {h : Handle} (hm : c.permissions = some m) (hbuilt : m.Built)
    (hlimit : c.config.maxGraphEdges ≤ FlowGraph.edgeBound)
    (ha : c.analyzeReach r q = .ok ((results, h), r')) :
    ∃ start types, c.policy.resolve q.start = some start ∧
      (∀ t, (q.criteria types).isPassable t = true ↔ q.Allows c.policy t) ∧
      (c.policy.flows m (q.criteria types)).LightestFlows q.direction.orientation
        q.direction.flowDirection start (fun t => NameFilter.passes q.filter c.policy t = true)
        results := by
  obtain ⟨m', start, types, hm', hstart, htypes, hbegin⟩ := analyzeReach_eq_ok ha
  obtain rfl := Option.some.inj (hm.symm.trans hm')
  exact ⟨start, types, hstart, fun t => isPassable_iff htypes,
    lightestFlows_of_begin hbuilt hlimit rfl hbegin⟩

/-- The analysis of `Policy.sample` from `a` on. -/
theorem sample_reach_exact :
    let c : FlowContext := ⟨.sample, some .sample, {}⟩
    let q : ReachQuery := { direction := .fromStart, start := "a" }
    ∃ results h r', c.analyzeReach .empty q = .ok ((results, h), r') ∧
      ∃ start types, c.policy.resolve q.start = some start ∧
        (∀ t, (q.criteria types).isPassable t = true ↔ q.Allows c.policy t) ∧
        (c.policy.flows .sample (q.criteria types)).LightestFlows .forward .outward start
          (fun t => NameFilter.passes q.filter c.policy t = true) results := by
  intro c q
  have hok : (c.analyzeReach .empty q).isOk = true := by decide +kernel
  obtain ⟨⟨⟨results, h⟩, r'⟩, hresults⟩ := exists_ok hok
  exact ⟨results, h, r', hresults,
    analyzeReach_exact rfl PermissionMap.built_sample (by decide) hresults⟩

end FlowContext

end PolicyReach
