import PolicyReach.Proofs.Flow.Locality
import PolicyReach.Proofs.Flow.PathEnumeration
import PolicyReach.Proofs.Policy.Names

/-!
# Flow graphs of types that a policy knows

A graph is scanned from the pairs of types that rules cover, and grown by edges of its index and by roots
that names resolve to. Where the policy declares what its names stand for, no other type gets in.

* `FlowGraph.Within`: the nodes, the roots and the ends of the edges are types that the policy knows, and
  the weights are in range;
* **`Policy.flows_within`**, **`Within.grow`**: so it is in every index, and in what is grown from one;
* **`Within.results`**: the flows that such a graph gives from a known type are between known types, and so
  are their steps, whose weights are in range;
* `PathEnumeration.Within`, `Within.next`: an enumeration between known types leads all its candidates to its
  end, so that the same holds of each flow along one (**`Within.walkResult`**).
-/

namespace PolicyReach

variable {p : Policy}

/-- The policy knows both ends of the edge, and its weight is in range. -/
structure Edge.Within (p : Policy) (e : Edge) : Prop where
  source : p.Knows e.source
  target : p.Knows e.target
  weight : InRange e.weight

/-- The policy knows all types of the graph, and all weights are in range. -/
structure FlowGraph.Within (p : Policy) (g : FlowGraph) : Prop where
  sound : g.Sound
  nodes : ∀ t ∈ g.nodes, p.Knows t
  roots : ∀ t ∈ g.roots, p.Knows t
  edges : ∀ e ∈ g.edges, e.Within p

/-- The policy knows both ends of the step, and its weight is in range. -/
structure FlowStep.Within (p : Policy) (s : FlowStep) : Prop where
  source : p.Knows s.source
  target : p.Knows s.target
  weight : InRange s.weight

/-- The policy knows all types of the flow, and the weights of its steps are in range. -/
structure FlowResult.Within (p : Policy) (r : FlowResult) : Prop where
  start : p.Knows r.start
  finish : p.Knows r.finish
  steps : ∀ s ∈ r.steps, s.Within p

theorem Edge.Within.ofEdge {e : Edge} (he : e.Within p) : (FlowStep.ofEdge e).Within p :=
  ⟨he.source, he.target, he.weight⟩

/-! ## Scanning and growing -/

theorem Edge.Within.onto {old : Option Edge} {e : Edge} (hold : ∀ x, old = some x → x.Within p)
    (he : e.Within p) : (Edge.onto old e).Within p := by
  cases old with
  | none => exact he
  | some x =>
    have hx := hold x rfl
    refine ⟨hx.source, hx.target, ?_⟩
    have hmin : (x.join e).weight.toNat = min x.weight.toNat e.weight.toNat := Edge.toNat_join_weight x e
    have hlow := hx.weight
    have hlow' := he.weight
    unfold InRange at hlow hlow' ⊢
    show minWeight.toNat ≤ (x.join e).weight.toNat ∧ (x.join e).weight.toNat ≤ maxWeight.toNat
    omega

namespace FlowGraph

variable {g index : FlowGraph} {o : Orientation} {a b start t : TypeName} {e : Edge}

theorem within_empty (p : Policy) (criteria : Criteria) : (empty criteria).Within p where
  sound := sound_empty criteria
  nodes t ht := absurd ht (OrdSet.not_mem_empty t)
  roots t ht := absurd ht (OrdSet.not_mem_empty t)
  edges e he := by
    obtain ⟨a, b, hab⟩ := mem_edges.mp he
    exact nomatch (arc?_empty criteria .forward a b).symm.trans hab

namespace Within

theorem arc (hg : g.Within p) (he : g.arc? o a b = some e) :
    e.Within p ∧ p.Knows a ∧ p.Knows b := by
  obtain ⟨ha, hb⟩ := hg.sound.arc_nodes he
  exact ⟨hg.edges e (hg.sound.arc_mem_edges he), hg.nodes a ha, hg.nodes b hb⟩

theorem congr {p' : Policy} (h : p.types = p'.types) (hg : g.Within p) : g.Within p' where
  sound := hg.sound
  nodes t ht := (Policy.knows_congr h).mp (hg.nodes t ht)
  roots t ht := (Policy.knows_congr h).mp (hg.roots t ht)
  edges e he :=
    { hg.edges e he with
      source := (Policy.knows_congr h).mp (hg.edges e he).source
      target := (Policy.knows_congr h).mp (hg.edges e he).target }

theorem insertEdge (hg : g.Within p) (he : e.Within p) (hne : e.source ≠ e.target) :
    (g.insertEdge e).Within p where
  sound := hg.sound.insertEdge hne
  nodes t ht := by
    unfold FlowGraph.insertEdge at ht
    rw [OrdSet.mem_insert, OrdSet.mem_insert] at ht
    rcases ht with rfl | rfl | ht
    · exact he.target
    · exact he.source
    · exact hg.nodes t ht
  roots := hg.roots
  edges f hf := by
    obtain ⟨a, b, hab⟩ := mem_edges.mp hf
    rcases arc?_insertEdge_cases hab with hold | ⟨-, -, rfl⟩
    · exact (hg.arc hold).1
    · exact he.onto fun x hx => (hg.arc hx).1

theorem insertEdges : ∀ {l : List Edge} {g : FlowGraph}, g.Within p →
    (∀ e ∈ l, e.Within p ∧ e.source ≠ e.target) → (g.insertEdges l).Within p
  | [], _, hg, _ => hg
  | e :: l, g, hg, hl => by
    obtain ⟨he, hne⟩ := hl e List.mem_cons_self
    show ((g.insertEdge e).insertEdges l).Within p
    exact insertEdges (hg.insertEdge he hne) fun f hf => hl f (List.mem_cons_of_mem e hf)

theorem addRoot (hg : g.Within p) (ht : p.Knows t) : (g.addRoot t).Within p where
  sound := hg.sound.addRoot t
  nodes u hu := (OrdSet.mem_insert.mp hu).elim (fun heq => heq ▸ ht) (hg.nodes u)
  roots u hu := (OrdSet.mem_insert.mp hu).elim (fun heq => heq ▸ ht) (hg.roots u)
  edges := hg.edges

/-- **Growing a graph from a known type** adds known types only. -/
theorem grow (hi : index.Within p) (hg : g.Within p) (hstart : p.Knows start) {limit : Nat}
    {g' : FlowGraph} (h : index.grow limit g start = .ok g') : g'.Within p := by
  rcases grow_cases h with ⟨-, rfl⟩ | ⟨-, rfl, -⟩
  · exact hg
  · refine addRoot (hg.insertEdges fun e he => ?_) hstart
    have harc := arc_of_mem_select hi.sound he
    exact ⟨(hi.arc harc).1, hi.sound.loopless _ _ e harc⟩

end Within

end FlowGraph

/-- **The flows of a policy are between types that it knows**, as heavy as its map allows. -/
theorem Policy.flows_within (hp : p.Declared) {m : PermissionMap} (hm : m.Built) (criteria : Criteria) :
    (p.flows m criteria).Within p := by
  refine (FlowGraph.within_empty p criteria).insertEdges fun e he => ?_
  obtain ⟨r, hr, her⟩ := mem_allRuleEdges.mp he
  obtain ⟨⟨perm, x, hby, hw⟩, hne, -⟩ := contributes_of_mem_ruleEdges hr her
  have hends : p.Knows e.source ∧ p.Knows e.target := by
    rcases hby.flows with ⟨-, hcovers⟩ | ⟨-, hcovers⟩
    · exact hp.knows_covered hcovers
    · exact (hp.knows_covered hcovers).symm
  exact ⟨⟨hends.1, hends.2, hw ▸ hm.weight hby.mapped⟩, hne⟩

/-! ## What a search meets -/

namespace Search

variable {q : Search} {s : Reached} {a : TypeName} {c : UInt32}

/-- All that the search has met is its source or a node. -/
def Met (q : Search) (s : Reached) : Prop :=
  ∀ t d, s.dist.get? t = some d → t = q.source ∨ t ∈ q.graph.nodes

theorem met_start (q : Search) : q.Met (Reached.reach {} q.source 0) := by
  intro t d hd
  unfold Reached.reach at hd
  rw [OrdMap.get?_insert] at hd
  split at hd
  · exact Or.inl ‹_›
  · cases (OrdMap.get?_empty t).symm.trans hd

theorem Met.visit (hg : q.graph.Sound) (h : q.Met s) {hop : TypeName × Edge}
    (harc : q.graph.arc? q.orientation a hop.1 = some hop.2) : q.Met (q.visit a c s hop) := by
  unfold Search.visit
  split
  · unfold Reached.offer
    split
    · intro t d hd
      change (s.reachVia hop.1 a _).dist.get? t = some d at hd
      rw [Reached.dist_reachVia] at hd
      split at hd
      · rename_i heq
        exact Or.inr (heq ▸ (hg.arc_nodes harc).2)
      · exact h t d hd
    · exact h
  · exact h

theorem Met.visitAll (hg : q.graph.Sound) :
    ∀ {hops : List (TypeName × Edge)} {s : Reached},
      (∀ hop ∈ hops, q.graph.arc? q.orientation a hop.1 = some hop.2) → q.Met s →
      q.Met (hops.foldl (q.visit a c) s)
  | [], _, _, h => h
  | hop :: hops, s, harcs, h => by
    show q.Met (hops.foldl (q.visit a c) (q.visit a c s hop))
    exact Met.visitAll hg (fun x hx => harcs x (List.mem_cons_of_mem hop hx))
      (h.visit hg (harcs hop List.mem_cons_self))

theorem Met.settleOne (hg : q.graph.Sound) (h : q.Met s) (t : TypeName) (c : UInt32) :
    q.Met (q.settleOne s t c) := by
  unfold Search.settleOne
  split
  · exact h
  · split
    · exact Met.visitAll hg (fun _ hhop => FlowGraph.mem_neighbors.mp hhop) h
    · exact h

theorem Met.settleAll (hg : q.graph.Sound) :
    ∀ {fuel : Nat} {s : Reached}, q.Met s → q.Met (q.settleAll fuel s)
  | 0, _, h => h
  | fuel + 1, s, h => by
    cases ht : s.lightest? with
    | none =>
      rw [settleAll_of_none q _ ht]
      exact h
    | some w =>
      obtain ⟨t, c⟩ := w
      by_cases htarget : q.target = some t
      · rw [settleAll_of_target ht htarget]
        exact h.settleOne hg t c
      · rw [settleAll_of_some ht htarget]
        exact Met.settleAll hg (h.settleOne hg t c)

end Search

/-! ## Results -/

namespace FlowGraph

variable {g : FlowGraph} {o : Orientation} {start finish t : TypeName}

/-- A flow along a walk that ends at a known type. -/
theorem Within.walkResult (hg : g.Within p) (hstart : p.Knows start) {direction : FlowDirection}
    {walk : List TypeName} (hlast : walk.getLast? = some finish) (hfinish : p.Knows finish)
    {r : FlowResult} (hr : g.walkResult? o direction start walk = some r) : r.Within p := by
  obtain ⟨last, es, hend, hes, rfl⟩ := walkResult?_eq_some hr
  obtain rfl := Option.some.inj (hend.symm.trans hlast)
  refine ⟨hstart, hfinish, fun s hs => ?_⟩
  obtain ⟨e, he, rfl⟩ := List.mem_map.mp hs
  exact (hg.edges e (mem_edges_of_walkEdges? hes he)).ofEdge

theorem Within.reachResults (hg : g.Within p) (hstart : p.Knows start) {f : Option NameFilter}
    {direction : ReachDirection} {r : FlowResult} (hr : r ∈ g.reachResults p f direction start) :
    r.Within p := by
  obtain ⟨found, hfound, hr⟩ := List.mem_filterMap.mp hr
  obtain ⟨hmem, -⟩ := List.mem_filter.mp hfound
  obtain ⟨d, hd⟩ := Option.isSome_iff_exists.mp (OrdMap.mem_keyList.mp hmem)
  have hknown : p.Knows found := by
    rcases Search.Met.settleAll hg.sound (Search.met_start _) found d hd with rfl | hnode
    · exact hstart
    · exact hg.nodes found hnode
  obtain ⟨walk, hwalk, hr⟩ := Option.bind_eq_some_iff.mp hr
  exact hg.walkResult hstart (Reached.getLast?_walkTo? hwalk) hknown hr

section OneHop

variable {inward outward : Option Edge} {r : FlowResult} (hstart : p.Knows start) (hfinish : p.Knows finish)
  (hin : ∀ e, inward = some e → e.Within p) (hout : ∀ e, outward = some e → e.Within p)
include hstart hfinish hin hout

theorem within_apart (hr : r ∈ apart start finish inward outward) : r.Within p := by
  have hhop {direction : FlowDirection} {e : Edge} (he : e.Within p) :
      (hopResult start direction finish e).Within p :=
    ⟨hstart, hfinish, fun s hs => List.mem_singleton.mp hs ▸ he.ofEdge⟩
  simp only [apart, List.mem_append, Option.mem_toList, Option.map_eq_some_iff] at hr
  rcases hr with ⟨e, he, rfl⟩ | ⟨e, he, rfl⟩
  · exact hhop (hin e he)
  · exact hhop (hout e he)

theorem within_together (hr : r ∈ together start finish inward outward) : r.Within p := by
  unfold together at hr
  split at hr
  · rename_i i e
    obtain rfl := List.mem_singleton.mp hr
    refine ⟨hstart, hfinish, fun s hs => ?_⟩
    rcases List.mem_cons.mp hs with rfl | hs
    · exact (hin i rfl).ofEdge
    · obtain rfl := List.mem_singleton.mp hs
      exact (hout e rfl).ofEdge
  · exact within_apart hstart hfinish hin hout hr

end OneHop

theorem Within.hopResults (hg : g.Within p) (hstart : p.Knows start) {f : Option NameFilter}
    {direction : FlowDirection} {r : FlowResult} (hr : r ∈ g.hopResults p f direction start) :
    r.Within p := by
  have hfan {wanted : Bool} {o : Orientation} {t : TypeName} {e : Edge}
      (he : (if wanted = true then g.filteredFan p f o start else ∅ : Fan).get? t = some e) :
      e.Within p ∧ p.Knows t := by
    split at he
    · unfold filteredFan at he
      rw [OrdMap.get?_filter, Option.filter_eq_some_iff] at he
      obtain ⟨hedge, -, hknown⟩ := hg.arc (o := o) he.1
      exact ⟨hedge, hknown⟩
    · cases (OrdMap.get?_empty t).symm.trans he
  obtain ⟨finish, hfinish, hr⟩ := List.mem_flatMap.mp hr
  have hknown : p.Knows finish := by
    rw [OrdSet.mem_toList, OrdSet.mem_union, OrdMap.mem_keys, OrdMap.mem_keys] at hfinish
    rcases hfinish with hin | hout
    · obtain ⟨e, he⟩ := hin
      exact (hfan he).2
    · obtain ⟨e, he⟩ := hout
      exact (hfan he).2
  split at hr
  · exact within_together hstart hknown (fun _ he => (hfan he).1) (fun _ he => (hfan he).1) hr
  · exact within_apart hstart hknown (fun _ he => (hfan he).1) (fun _ he => (hfan he).1) hr

/-- **The flows from a known type are between known types**, step by step. -/
theorem Within.results (hg : g.Within p) (hstart : p.Knows start) {f : Option NameFilter}
    {kind : FlowKind} {r : FlowResult} (hr : r ∈ g.results p f kind start) :
    r.Within p := by
  cases kind with
  | hop direction => exact hg.hopResults hstart hr
  | reach direction => exact hg.reachResults hstart hr

end FlowGraph

/-! ## Enumerations -/

namespace PathEnumeration

variable {e e' : PathEnumeration} {g : FlowGraph} {start finish : TypeName} {c : Candidate}

/-- The policy knows both ends, and all candidates lead to the end. -/
structure Within (p : Policy) (e : PathEnumeration) : Prop where
  start : p.Knows e.start
  finish : p.Knows e.finish
  queue : ∀ c ∈ e.queue, c.walk.getLast? = some e.finish

theorem walk_of_candidate? {walk : List TypeName} (h : e.candidate? g walk = some c) : c.walk = walk := by
  obtain ⟨w, -, rfl⟩ := Option.map_eq_some_iff.mp h
  rfl

/-- A deviation leads where the path does. -/
theorem getLast?_of_deviation? {path : List TypeName} {i : Nat} (h : e.deviation? g path i = some c) :
    c.walk.getLast? = some e.finish := by
  obtain ⟨source, -, h⟩ := Option.bind_eq_some_iff.mp h
  obtain ⟨spur, hspur, h⟩ := Option.bind_eq_some_iff.mp h
  have hlast : spur.getLast? = some e.finish := Reached.getLast?_walkTo? hspur
  dsimp only at h
  split at h
  · exact nomatch h
  · rw [walk_of_candidate? h, List.getLast?_append, hlast]
    rfl

theorem within_prepare (g : FlowGraph) (hstart : p.Knows start) (hfinish : p.Knows finish)
    (o : Orientation) (limit : Nat) : (prepare g start finish o limit).Within p := by
  unfold prepare
  dsimp only
  split
  · rename_i c hc
    obtain ⟨walk, hwalk, hc⟩ := Option.bind_eq_some_iff.mp hc
    refine ⟨hstart, hfinish, fun d hd => ?_⟩
    obtain rfl := List.mem_singleton.mp hd
    rw [walk_of_candidate? hc]
    exact Reached.getLast?_walkTo? hwalk
  · exact ⟨hstart, hfinish, fun c hc => nomatch hc⟩

/-- **Taking a path keeps the ends**, and the path leads to the end. -/
theorem Within.next (he : e.Within p) (h : e.next g = .ok (some (c, e'))) :
    e'.Within p ∧ e'.start = e.start ∧ c.walk.getLast? = some e.finish := by
  obtain ⟨queue, hqueue, -, rfl⟩ := next_eq_some_iff.mp h
  refine ⟨⟨he.start, he.finish, fun d hd => ?_⟩, rfl, he.queue c (hqueue ▸ List.mem_cons_self)⟩
  have hd : d ∈ Candidate.enqueueAll (e.deviations g c.walk) queue := hd
  show d.walk.getLast? = some e.finish
  rcases List.mem_append.mp ((Candidate.perm_enqueueAll _ _).mem_iff.mp hd) with hnew | hold
  · obtain ⟨before, source, y, rest, -, hdev⟩ := mem_deviations.mp hnew
    exact getLast?_of_deviation? hdev
  · exact he.queue d (hqueue ▸ List.mem_cons_of_mem c hold)

end PathEnumeration

end PolicyReach
