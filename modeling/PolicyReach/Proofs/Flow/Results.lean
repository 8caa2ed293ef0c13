import PolicyReach.Proofs.Flow.Selection
import PolicyReach.Proofs.Flow.ShortestPath

/-!
# Results over many hops are exact

* **`reachResults_exact`**: a graph gives one flow for each type that routes lead to, ascending by
  their names, and each is the flow along a lightest route;
* **`Grown.lightestFlows`**: what a graph gives from one of its roots is what its index has.
-/

namespace PolicyReach

namespace FlowGraph

variable {g : FlowGraph} {o : Orientation} {start t : TypeName} {l : List TypeName}

/-- The search for everything that routes from a type lead to. -/
def searchFrom (g : FlowGraph) (o : Orientation) (start : TypeName) : Search :=
  { graph := g, orientation := o, source := start }

/-- A route is a walk of the search from its first type. -/
theorem Route.walk (h : g.Route o start t l) : (g.searchFrom o start).Walk l t (g.cost o l) :=
  Search.Admissible.walk (q := g.searchFrom o start) rfl
    ⟨h.head, h.last, h.walks, h.inner, fun _ _ => List.not_mem_nil, fun _ _ => List.not_mem_nil⟩

/-- A walk of the search that repeats no type is a route. -/
theorem route_of_walk {n : Nat} (h : (g.searchFrom o start).Walk l t n) (hn : l.Nodup) :
    g.Route o start t l ∧ g.cost o l = n := by
  have hadmissible := h.admissible hn
  exact ⟨⟨hadmissible.head, hadmissible.last, hadmissible.walks, hadmissible.inner⟩, h.walks.2⟩

/-- A route between two different types has two types at least. -/
theorem Route.two_le_length (h : g.Route o start t l) (hne : t ≠ start) : 2 ≤ l.length := by
  obtain ⟨rest, rfl⟩ := List.head?_eq_some_iff.mp h.head
  cases rest with
  | nil => exact absurd (Option.some.inj h.last).symm hne
  | cons x rest => exact Nat.le_add_left 2 _

/-- **The lightest routes are found**, one to each type that there is a route to. -/
theorem walkTo?_searchFrom (hg : g.Sound) (hm : g.Measured) :
    (∀ {l}, (g.searchFrom o start).run.walkTo? t = some l →
      g.Route o start t l ∧ l.Nodup ∧ ∀ {l'}, g.Route o start t l' → g.cost o l ≤ g.cost o l') ∧
      ((∃ l, g.Route o start t l) → ∃ l, (g.searchFrom o start).run.walkTo? t = some l) := by
  refine ⟨fun {l} hl => ?_, fun ⟨l, hl⟩ => Search.exists_walkTo? hg.closed hm (Or.inl rfl) hl.walk⟩
  obtain ⟨n, hwalk, hn, hmin⟩ := Search.walkTo?_eq_some (q := g.searchFrom o start) hg.closed
    hm (Or.inl rfl) hl
  obtain ⟨hroute, rfl⟩ := route_of_walk hwalk hn
  exact ⟨hroute, hn, fun h => hmin h.walk⟩

/-- `results` are the lightest flows from `start` to types that pass a filter. -/
structure LightestFlows (g : FlowGraph) (o : Orientation) (direction : FlowDirection)
    (start : TypeName) (passes : TypeName → Prop) (results : List FlowResult) : Prop where
  ascending : (results.map FlowResult.finish).Pairwise fun a b => compare a b = .lt
  found : ∀ t, (∃ r ∈ results, r.finish = t) ↔
    t ≠ start ∧ passes t ∧ ∃ walk, g.Route o start t walk
  lightest : ∀ r ∈ results, r.direction = direction ∧ r.start = start ∧
    ∃ walk, g.Route o start r.finish walk ∧ walk.Nodup ∧ r.Along g o walk ∧
      ∀ other, g.Route o start r.finish other → r.length.toNat ≤ g.cost o other

theorem map_filterMap_of_finish {f : TypeName → Option FlowResult} :
    ∀ {ts : List TypeName}, (∀ t ∈ ts, ∃ r, f t = some r ∧ r.finish = t) →
      (ts.filterMap f).map FlowResult.finish = ts
  | [], _ => rfl
  | t :: ts, h => by
    obtain ⟨r, hr, hfinish⟩ := h t List.mem_cons_self
    have ih := map_filterMap_of_finish fun x hx => h x (List.mem_cons_of_mem t hx)
    rw [List.filterMap_cons_some hr, List.map_cons, hfinish, ih]

theorem walkTo?_eq_some_iff_contains {s : Reached} :
    (∃ l, s.walkTo? t = some l) ↔ s.dist.contains t = true := by
  unfold Reached.walkTo?
  split
  · exact ⟨fun _ => ‹_›, fun _ => ⟨_, rfl⟩⟩
  · refine ⟨?_, fun h => absurd h ‹_›⟩
    rintro ⟨l, hl⟩
    cases hl

/-- The flow to a type is the one along a lightest route. -/
theorem exists_lightest_flow (hg : g.Sound) (hm : g.Measured) (direction : FlowDirection)
    (hne : t ≠ start) (hroute : ∃ walk, g.Route o start t walk) :
    ∃ r, ((g.searchFrom o start).run.walkTo? t).bind (g.walkResult? o direction start) = some r ∧
      r.finish = t ∧ r.direction = direction ∧ r.start = start ∧
      ∃ walk, g.Route o start t walk ∧ walk.Nodup ∧ r.Along g o walk ∧
        ∀ other, g.Route o start t other → r.length.toNat ≤ g.cost o other := by
  obtain ⟨hwalk, hex⟩ := walkTo?_searchFrom hg hm
  obtain ⟨l, hl⟩ := hex hroute
  obtain ⟨hr, hn, hmin⟩ := hwalk hl
  obtain ⟨r, hres, halong, hdir, hstart, hfinish⟩ :=
    hr.walks.walkResult?_along hg hm hr.head hr.last hn (hr.two_le_length hne) direction
  refine ⟨r, ?_, hfinish, hdir, hstart, l, hr, hn, halong, fun other hother => ?_⟩
  · rw [hl]
    exact hres
  · rw [halong.length]
    exact hmin hother

/-- **A graph gives the lightest flows** from a type, one for each type that routes lead to. -/
theorem reachResults_exact (hg : g.Sound) (hm : g.Measured) (p : Policy) (f : Option NameFilter)
    (direction : ReachDirection) (start : TypeName) :
    g.LightestFlows direction.orientation direction.flowDirection start
      (fun t => NameFilter.passes f p t = true) (g.reachResults p f direction start) := by
  generalize ho : direction.orientation = o
  generalize hkeys : ((g.searchFrom o start).run.dist.keyList.filter fun t =>
    t != start && NameFilter.passes f p t) = keys
  have hresults : g.reachResults p f direction start = keys.filterMap fun t =>
      ((g.searchFrom o start).run.walkTo? t).bind
        (g.walkResult? o direction.flowDirection start) := by
    rw [← hkeys, ← ho]
    rfl
  have hmem (t : TypeName) : t ∈ keys ↔
      t ≠ start ∧ NameFilter.passes f p t = true ∧ ∃ walk, g.Route o start t walk := by
    rw [← hkeys, List.mem_filter, OrdMap.mem_keyList, ← walkTo?_eq_some_iff_contains,
      Bool.and_eq_true, bne_iff_ne]
    obtain ⟨hwalk, hex⟩ := walkTo?_searchFrom hg hm
    constructor
    · rintro ⟨⟨l, hl⟩, hne, hpass⟩
      exact ⟨hne, hpass, l, (hwalk hl).1⟩
    · rintro ⟨hne, hpass, hroute⟩
      exact ⟨hex hroute, hne, hpass⟩
  have hflow (t : TypeName) (ht : t ∈ keys) :=
    exists_lightest_flow hg hm direction.flowDirection ((hmem t).mp ht).1 ((hmem t).mp ht).2.2
  rw [hresults]
  refine ⟨?_, fun t => ?_, fun r hr => ?_⟩
  · rw [map_filterMap_of_finish fun t ht => (hflow t ht).imp fun r hr => ⟨hr.1, hr.2.1⟩, ← hkeys]
    exact (OrdMap.ascending_keyList _).filter _
  · rw [← hmem]
    constructor
    · rintro ⟨r, hr, hfinish⟩
      obtain ⟨x, hx, hxr⟩ := List.mem_filterMap.mp hr
      obtain ⟨r', hr', hfinish', -⟩ := hflow x hx
      obtain rfl := Option.some.inj (hr'.symm.trans hxr)
      exact hfinish ▸ hfinish' ▸ hx
    · intro ht
      obtain ⟨r, hr, hfinish, -⟩ := hflow t ht
      exact ⟨r, List.mem_filterMap.mpr ⟨t, ht, hr⟩, hfinish⟩
  · obtain ⟨x, hx, hxr⟩ := List.mem_filterMap.mp hr
    obtain ⟨r', hr', hfinish, hrest⟩ := hflow x hx
    obtain rfl := Option.some.inj (hr'.symm.trans hxr)
    rw [hfinish]
    exact hrest

/-! ## Results of graphs that are grown from an index -/

/-- An index that flows are scanned into: sound, its weights in range. -/
structure Index (index : FlowGraph) : Prop where
  sound : index.Sound
  inRange : ∀ {o a b e}, index.arc? o a b = some e → InRange e.weight

theorem index_of_built {m : PermissionMap} (hm : m.Built) (p : Policy)
    (criteria : Criteria) : (p.flows m criteria).Index where
  sound := p.flows_sound m criteria
  inRange {o a b e} he := by
    rw [(p.flows_sound m criteria).arc_eq_edge?] at he
    cases o with
    | forward => exact hm.flow_weight he
    | backward => exact hm.flow_weight he

namespace Grown

variable {index : FlowGraph} {limit : Nat}

/-- Within the bound on edges, sums of weights on the walks of a grown graph are exact. -/
theorem measured (hi : index.Index) (hg : Grown limit index g) (hlimit : limit ≤ edgeBound) :
    g.Measured :=
  measured_of_inRange hg.sound (fun he => hi.inRange (hg.arc hi.sound he))
    (Nat.le_trans hg.bounded hlimit)

/-- A flow along a walk of the graph is the flow along it in the index. -/
theorem along (hi : index.Index) (hg : Grown limit index g) {r : FlowResult}
    (hw : g.Walks o l) (h : r.Along g o l) : r.Along index o l where
  start := h.start
  finish := h.finish
  types := h.types
  chained := h.chained
  edges s hs := by
    obtain ⟨e, he, heq⟩ := h.edges s hs
    exact ⟨e, hg.edges he, heq⟩
  sum := h.sum
  length := h.length.trans (hg.cost_eq hi.sound hw)

/-- **The lightest flows from a root of a graph are those of the index.** -/
theorem lightestFlows (hi : index.Index) (hg : Grown limit index g) {direction : ReachDirection}
    (hscope : index.criteria.scope = .transitive direction) (hroot : start ∈ g.roots)
    {d : FlowDirection} {passes : TypeName → Prop} {results : List FlowResult}
    (h : g.LightestFlows direction.orientation d start passes results) :
    index.LightestFlows direction.orientation d start passes results where
  ascending := h.ascending
  found t := by
    rw [h.found]
    simp only [hg.route_iff hi.sound hscope hroot]
  lightest r hr := by
    obtain ⟨hdir, hstart, walk, hroute, hn, halong, hmin⟩ := h.lightest r hr
    refine ⟨hdir, hstart, walk, (hg.route_iff hi.sound hscope hroot).mp hroute, hn,
      hg.along hi hroute.walks halong, fun other hother => ?_⟩
    have hother' := (hg.route_iff hi.sound hscope hroot).mpr hother
    rw [← hg.cost_eq hi.sound hother'.walks]
    exact hmin other hother'

end Grown

end FlowGraph

end PolicyReach
