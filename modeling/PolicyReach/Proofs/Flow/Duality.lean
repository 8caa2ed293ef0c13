import PolicyReach.Proofs.Session.Reach

/-!
# Flows from a type and flows to a type

An analysis of the flows from a type walks edges from source to target, one of the flows to a type walks
them from target to source, and each selects the part of the index that its own walks need. What they
give is about the same routes, read from either end.

* `Sound.route_reverse`: a route followed backward is a route followed forward, reversed; types at its
  ends are spared the restriction on what it passes through either way;
* `Policy.flows_congr`: the flows of a policy depend on which permissions count, and on nothing else that
  a query asks for;
* **`FlowContext.reach_dual`**: one type is found from another iff the other is found from it the other
  way round, at the same length.

The routes that are reported may differ, as ties are broken by the types before the last one from either
end.
-/

namespace PolicyReach

namespace FlowGraph

variable {g : FlowGraph} {a b : TypeName} {l : List TypeName}

/-- **A route followed backward is a route followed forward, reversed.** -/
theorem Sound.route_reverse (hg : g.Sound) :
    g.Route .forward a b l.reverse ↔ g.Route .backward b a l := by
  have hinner : l.reverse.tail.dropLast = l.tail.dropLast.reverse := by
    rw [List.tail_reverse, List.dropLast_reverse, List.tail_dropLast]
  have hwalks : g.Walks .forward l.reverse ↔ g.Walks .backward l :=
    hg.walks_along (o := .backward)
  have hpasses : (∀ t ∈ l.reverse.tail.dropLast, g.criteria.isPassable t = true) ↔
      ∀ t ∈ l.tail.dropLast, g.criteria.isPassable t = true := by
    simp only [hinner, List.mem_reverse]
  constructor
  · rintro ⟨head, last, walks, inner⟩
    rw [List.head?_reverse] at head
    rw [List.getLast?_reverse] at last
    exact ⟨last, head, hwalks.mp walks, hpasses.mp inner⟩
  · rintro ⟨head, last, walks, inner⟩
    refine ⟨?_, ?_, hwalks.mpr walks, hpasses.mpr inner⟩
    · rw [List.head?_reverse, last]
    · rw [List.getLast?_reverse, head]

theorem Sound.cost_reverse (hg : g.Sound) (l : List TypeName) :
    g.cost .forward l.reverse = g.cost .backward l :=
  hg.cost_along (o := .backward) l

theorem insertEdges_withCriteria (criteria : Criteria) (l : List Edge) (g : FlowGraph) :
    ({ g with criteria } : FlowGraph).insertEdges l = { g.insertEdges l with criteria } := by
  induction l generalizing g with
  | nil => rfl
  | cons e l ih => exact ih (g.insertEdge e)

/-- Routes are told by the edges, and by what may be passed through. -/
theorem route_withCriteria {o : Orientation} {criteria : Criteria}
    (hpass : ∀ t, criteria.isPassable t = true ↔ g.criteria.isPassable t = true) :
    ({ g with criteria } : FlowGraph).Route o a b l ↔ g.Route o a b l := by
  constructor
  · rintro ⟨head, last, walks, inner⟩
    exact ⟨head, last, walks, fun t ht => (hpass t).mp (inner t ht)⟩
  · rintro ⟨head, last, walks, inner⟩
    exact ⟨head, last, walks, fun t ht => (hpass t).mpr (inner t ht)⟩

theorem cost_withCriteria (criteria : Criteria) (o : Orientation) (l : List TypeName) :
    ({ g with criteria } : FlowGraph).cost o l = g.cost o l := by
  induction l with
  | nil => rfl
  | cons a l ih =>
    cases l with
    | nil => rfl
    | cons b l => exact congrArg (g.hopCost o a b + ·) ih

end FlowGraph

namespace Policy

variable {p : Policy} {m : PermissionMap} {k k' : Criteria} {o : Orientation}

/-- **The flows of a policy depend on which permissions count only.** -/
theorem flows_congr (p : Policy) (m : PermissionMap) (h : k'.classPerms = k.classPerms) :
    p.flows m k' = { p.flows m k with criteria := k' } := by
  have hadmits : k'.admits = k.admits := by
    funext cls perm
    rw [Criteria.admits, Criteria.admits, h]
  have hedges : p.ruleEdges m k' = p.ruleEdges m k := by
    funext r
    unfold ruleEdges Contribution.ofRule
    rw [hadmits]
  unfold flows
  rw [hedges]
  exact FlowGraph.insertEdges_withCriteria k' _ (FlowGraph.empty k)

theorem route_flows_congr {a b : TypeName} {l : List TypeName} (h : k'.classPerms = k.classPerms)
    (hpass : ∀ t, k'.isPassable t = true ↔ k.isPassable t = true) :
    (p.flows m k').Route o a b l ↔ (p.flows m k).Route o a b l := by
  rw [p.flows_congr m h]
  refine FlowGraph.route_withCriteria fun t => ?_
  rw [flows_criteria]
  exact hpass t

theorem cost_flows_congr (h : k'.classPerms = k.classPerms) (l : List TypeName) :
    (p.flows m k').cost o l = (p.flows m k).cost o l := by
  rw [p.flows_congr m h]
  exact FlowGraph.cost_withCriteria k' o l

end Policy

namespace FlowGraph

/-- Of lightest flows from both ends of the same routes, the one that is found from the first end is as
long as the one that is found from the other. -/
theorem LightestFlows.dual {g g' : FlowGraph} {s t : TypeName} {d d' : FlowDirection}
    {passes passes' : TypeName → Prop} {results results' : List FlowResult}
    (hroute : ∀ {l}, g.Route .forward s t l.reverse ↔ g'.Route .backward t s l)
    (hcost : ∀ l, g.cost .forward l.reverse = g'.cost .backward l)
    (ht : passes t) (hs : passes' s)
    (hfrom : g.LightestFlows .forward d s passes results)
    (hto : g'.LightestFlows .backward d' t passes' results') :
    ((∃ r ∈ results, r.finish = t) ↔ ∃ r ∈ results', r.finish = s) ∧
      ∀ r ∈ results, ∀ r' ∈ results', r.finish = t → r'.finish = s → r.length = r'.length := by
  constructor
  · rw [hfrom.found, hto.found]
    constructor
    · rintro ⟨hne, -, walk, hwalk⟩
      rw [← List.reverse_reverse walk] at hwalk
      exact ⟨hne.symm, hs, walk.reverse, hroute.mp hwalk⟩
    · rintro ⟨hne, -, walk, hwalk⟩
      exact ⟨hne.symm, ht, walk.reverse, hroute.mpr hwalk⟩
  · rintro r hr r' hr' rfl rfl
    obtain ⟨-, -, walk, hwalk, -, halong, hleast⟩ := hfrom.lightest r hr
    obtain ⟨-, -, walk', hwalk', -, halong', hleast'⟩ := hto.lightest r' hr'
    -- either length is least among the costs of all routes, and the other is one of these
    have hle := hleast _ (hroute.mpr hwalk')
    rw [hcost, ← halong'.length] at hle
    rw [← List.reverse_reverse walk] at hwalk
    have hge := hleast' _ (hroute.mp hwalk)
    rw [← hcost, List.reverse_reverse, ← halong.length] at hge
    exact UInt32.toNat_inj.mp (Nat.le_antisymm hle hge)

end FlowGraph

namespace FlowContext

/-- **Flows from a type and flows to a type are dual.** Where the analysis of the flows from `s` and that
of the flows to `t` both succeed, with the same restrictions and no filter, the former finds `t` iff the
latter finds `s`, and then at the same length. -/
theorem reach_dual {c : FlowContext} {r r' x x' : FlowRegistry} {m : PermissionMap} {q : ReachQuery}
    {a b : String} {s t : TypeName} {results results' : List FlowResult} {h h' : Handle}
    (hm : c.permissions = some m) (hbuilt : m.Built)
    (hlimit : c.config.maxGraphEdges ≤ FlowGraph.edgeBound) (hfilter : q.filter = none)
    (hs : c.policy.resolve a = some s) (ht : c.policy.resolve b = some t)
    (hfrom : c.analyzeReach r { q with direction := .fromStart, start := a } =
      .ok ((results, h), r'))
    (hto : c.analyzeReach x { q with direction := .toStart, start := b } =
      .ok ((results', h'), x')) :
    ((∃ f ∈ results, f.finish = t) ↔ ∃ f ∈ results', f.finish = s) ∧
      ∀ f ∈ results, ∀ f' ∈ results', f.finish = t → f'.finish = s → f.length = f'.length := by
  obtain ⟨m₁, start, types, hm₁, hstart, htypes, hbegin⟩ := analyzeReach_eq_ok hfrom
  obtain ⟨m₂, start', types', hm₂, hstart', htypes', hbegin'⟩ := analyzeReach_eq_ok hto
  obtain rfl := Option.some.inj (hm.symm.trans hm₁)
  obtain rfl := Option.some.inj (hm.symm.trans hm₂)
  obtain rfl := Option.some.inj (hstart.symm.trans hs)
  obtain rfl := Option.some.inj (hstart'.symm.trans ht)
  have hlightest := lightestFlows_of_begin hbuilt hlimit rfl hbegin
  have hlightest' := lightestFlows_of_begin hbuilt hlimit rfl hbegin'
  have hpasses (u : TypeName) : NameFilter.passes q.filter c.policy u = true := by
    rw [hfilter]
    rfl
  have hsound (k : Criteria) : (c.policy.flows m k).Sound := c.policy.flows_sound m k
  refine hlightest.dual (fun {l} => ?_) (fun l => ?_) (hpasses _) (hpasses _) hlightest'
  · rw [← (hsound _).route_reverse]
    exact Policy.route_flows_congr rfl fun u =>
      (isPassable_iff htypes).trans (isPassable_iff htypes').symm
  · rw [← (hsound _).cost_reverse]
    refine Policy.cost_flows_congr ?_ _
    rfl

/-- From `a` on, `c` is found at the same length as `a` is for the flows to `c`. -/
theorem sample_reach_dual :
    let c : FlowContext := ⟨.sample, some .sample, {}⟩
    let ahead : ReachQuery := { direction := .fromStart, start := "a" }
    let back : ReachQuery := { direction := .toStart, start := "c" }
    ∃ results h r' results' h' x',
      c.analyzeReach .empty ahead = .ok ((results, h), r') ∧
      c.analyzeReach .empty back = .ok ((results', h'), x') ∧
      ((∃ f ∈ results, f.finish = ⟨"c"⟩) ↔ ∃ f ∈ results', f.finish = ⟨"a"⟩) ∧
      ∀ f ∈ results, ∀ f' ∈ results', f.finish = ⟨"c"⟩ → f'.finish = ⟨"a"⟩ → f.length = f'.length := by
  intro c ahead back
  have hfrom : (c.analyzeReach .empty ahead).isOk = true := by decide +kernel
  have hto : (c.analyzeReach .empty back).isOk = true := by decide +kernel
  have hnames : c.policy.resolve "a" = some ⟨"a"⟩ ∧ c.policy.resolve "c" = some ⟨"c"⟩ := by
    decide +kernel
  obtain ⟨⟨⟨results, h⟩, r'⟩, hok⟩ := exists_ok hfrom
  obtain ⟨⟨⟨results', h'⟩, x'⟩, hok'⟩ := exists_ok hto
  exact ⟨results, h, r', results', h', x', hok, hok',
    reach_dual (q := ahead) rfl PermissionMap.built_sample (by decide) rfl hnames.1 hnames.2 hok hok'⟩

end FlowContext

end PolicyReach
