import PolicyReach.Proofs.Flow.PathEnumeration
import PolicyReach.Proofs.Session.Founded

/-!
# What an enumeration is asked for

A flow session is asked for the simple paths of its index between two types (`Inquiry`). Whatever its
graph has been grown from besides, the enumeration under way in it takes these paths
(`FlowSession.Pursues`).

* `InOrder.answers`, `InOrder.allOnce`: what paths taken in order say of the flows along them;
* `Founded.prepared`: an enumeration that is prepared has taken nothing;
* **`Pursues.taken`**: taking a path adds one, and gives the flow along it;
* `Pursues.continued`: growing the graph changes nothing of the enumeration.
-/

namespace PolicyReach

/-- What an enumeration is asked for: the paths of an index from one type to another. -/
structure Inquiry where
  index : FlowGraph
  direction : ReachDirection
  start : TypeName
  finish : TypeName

namespace Inquiry

/-- The walk is a simple path between the ends, through passable types. -/
def IsPath (q : Inquiry) (walk : List TypeName) : Prop :=
  q.index.Path q.direction.orientation q.start q.finish walk

/-- The sum of the weights on a walk. -/
def cost (q : Inquiry) (walk : List TypeName) : Nat := q.index.cost q.direction.orientation walk

/-- The index is over many hops in the direction asked for, and the ends are different. -/
structure Proper (q : Inquiry) : Prop where
  index : q.index.Index
  scope : q.index.criteria.scope = .transitive q.direction
  ends : q.start ≠ q.finish

/-- The walks are paths, none of them twice, and lighter ones come first. -/
structure InOrder (q : Inquiry) (walks : List (List TypeName)) : Prop where
  paths : ∀ w ∈ walks, q.IsPath w
  nodup : walks.Nodup
  ascending : walks.Pairwise fun v w => q.cost v ≤ q.cost w

/-- The flow is the one along a path. -/
structure Reports (q : Inquiry) (r : FlowResult) (walk : List TypeName) : Prop where
  direction : r.direction = q.direction.flowDirection
  start : r.start = q.start
  finish : r.finish = q.finish
  path : q.IsPath walk
  along : r.Along q.index q.direction.orientation walk

/-- The flows are along paths, no two with the same types, and none is shorter than one before. -/
structure Answers (q : Inquiry) (results : List FlowResult) : Prop where
  distinct : (results.map FlowResult.types).Nodup
  ascending : results.Pairwise fun r r' => r.length.toNat ≤ r'.length.toNat
  along : ∀ r ∈ results, ∃ walk, q.Reports r walk

/-- Each path is that of one flow, and of no other. -/
def AllOnce (q : Inquiry) (results : List FlowResult) : Prop :=
  ∀ walk, q.IsPath walk →
    (results.map FlowResult.types).count (q.direction.orientation.along walk) = 1

variable {q : Inquiry} {results : List FlowResult} {walks : List (List TypeName)}

theorem map_types (h : List.Forall₂ q.Reports results walks) :
    results.map FlowResult.types = walks.map q.direction.orientation.along := by
  induction h with
  | nil => rfl
  | cons hr _ ih => rw [List.map_cons, List.map_cons, hr.along.types, ih]

theorem map_length (h : List.Forall₂ q.Reports results walks) :
    results.map (fun r => r.length.toNat) = walks.map q.cost := by
  induction h with
  | nil => rfl
  | cons hr _ ih =>
    rw [List.map_cons, List.map_cons, hr.along.length, ih]
    rfl

theorem exists_reports (h : List.Forall₂ q.Reports results walks) :
    ∀ r ∈ results, ∃ walk, q.Reports r walk := by
  induction h with
  | nil => exact fun _ => (nomatch ·)
  | cons hr _ ih =>
    intro r hmem
    rcases List.mem_cons.mp hmem with rfl | hmem
    · exact ⟨_, hr⟩
    · exact ih r hmem

theorem InOrder.answers (hw : q.InOrder walks) (h : List.Forall₂ q.Reports results walks) :
    q.Answers results where
  distinct := by
    rw [map_types h]
    exact hw.nodup.map (Orientation.along_injective _)
  ascending := by
    have hpairs := List.pairwise_map.mpr hw.ascending
    rw [← map_length h] at hpairs
    exact List.pairwise_map.mp hpairs
  along := exists_reports h

theorem InOrder.allOnce (hw : q.InOrder walks) (h : List.Forall₂ q.Reports results walks)
    (hall : ∀ {w}, q.IsPath w → w ∈ walks) : q.AllOnce results := by
  intro walk hwalk
  have hdistinct := (hw.answers h).distinct
  rw [map_types h] at hdistinct ⊢
  exact List.count_eq_one_of_mem hdistinct (List.mem_map_of_mem (hall hwalk))

/-- There are finitely many paths. -/
theorem InOrder.length_le (hq : q.Proper) (hw : q.InOrder walks) :
    walks.length ≤ q.index.arrangements.length := by
  have hsub : walks ⊆ q.index.arrangements := by
    intro w hmem
    exact (hw.paths w hmem).mem_arrangements hq.index.sound hq.ends
  exact (List.subperm_of_subset hw.nodup hsub).length_le

end Inquiry

/-! ## The enumeration of a flow session -/

namespace FlowSession

variable {config : Config} {q : Inquiry} {walks : List (List TypeName)} {v : FlowSession}
  {e e' : PathEnumeration} {root : TypeName} {graph : FlowGraph}

/-- The enumeration is for the inquiry, over the graph of the flow session, and has taken these
walks. -/
structure Pursues (config : Config) (q : Inquiry) (walks : List (List TypeName)) (v : FlowSession)
    (e : PathEnumeration) : Prop where
  index : v.index = q.index
  kind : v.kind = .reach q.direction
  grown : FlowGraph.Grown config.maxGraphEdges q.index v.graph
  root : q.start ∈ v.graph.roots
  start : e.start = q.start
  finish : e.finish = q.finish
  orientation : e.orientation = q.direction.orientation
  limit : e.limit = config.maxCandidates
  tracks : e.Tracks q.index
  returned : e.returned = walks

theorem Pursues.isPath_iff (hv : v.Pursues config q walks e) {w : List TypeName} :
    e.IsPath q.index w ↔ q.IsPath w := by
  unfold PathEnumeration.IsPath Inquiry.IsPath
  rw [hv.start, hv.finish, hv.orientation]

theorem Pursues.cost_eq (hv : v.Pursues config q walks e) (w : List TypeName) :
    q.index.cost e.orientation w = q.cost w := by
  unfold Inquiry.cost
  rw [hv.orientation]

theorem Pursues.inOrder (hv : v.Pursues config q walks e) : q.InOrder walks where
  paths w hw := by
    rw [← hv.returned] at hw
    exact hv.isPath_iff.mp (hv.tracks.paths w (List.mem_append_left _ hw))
  nodup := by
    rw [← hv.returned]
    exact hv.tracks.distinct.of_append_left
  ascending := by
    have hascending := hv.tracks.ascending
    rw [hv.returned] at hascending
    simp only [hv.cost_eq] at hascending
    exact hascending

/-- The graph of the flow session has the paths of the inquiry. -/
theorem Pursues.carries (hq : q.Proper) (hlimit : config.maxGraphEdges ≤ FlowGraph.edgeBound)
    (hv : v.Pursues config q walks e) : e.Carries q.index v.graph :=
  PathEnumeration.carries_of_grown hq.index hv.grown hlimit hq.scope hv.orientation
    (hv.start ▸ hv.root)

/-- Growing the graph changes nothing of the enumeration. -/
theorem Pursues.continued (hq : q.Proper) (hv : v.Pursues config q walks e)
    (hg : v.index.grow config.maxGraphEdges v.graph root = .ok graph) :
    Pursues config q walks { v with graph } e := by
  rw [hv.index] at hg
  obtain ⟨hgrown, -, hroots⟩ := FlowGraph.grow_grown hq.index.sound hv.grown hg
  exact { hv with grown := hgrown, root := hroots _ hv.root }

/-- Preparing an enumeration begins one that has taken nothing. -/
theorem Founded.prepared (hq : q.Proper) (hlimit : config.maxGraphEdges ≤ FlowGraph.edgeBound)
    (hv : v.Founded config) (hindex : v.index = q.index) (hkind : v.kind = .reach q.direction)
    (hg : v.index.grow config.maxGraphEdges v.graph q.start = .ok graph)
    (he : e = .prepare graph q.start q.finish q.direction.orientation config.maxCandidates) :
    Pursues config q [] { v with graph, enumeration := some e } e := by
  rw [hindex] at hg
  obtain ⟨hgrown, hroot, -⟩ := FlowGraph.grow_grown hq.index.sound (hindex ▸ hv.grown) hg
  obtain ⟨htracks, hstart, hfinish, horient, hlim, hreturned⟩ :=
    PathEnumeration.tracks_prepare (PathEnumeration.carries_of_grown
      (e := .blank q.start q.finish q.direction.orientation config.maxCandidates) hq.index hgrown
      hlimit hq.scope rfl hroot)
  subst he
  exact ⟨hindex, hkind, hgrown, hroot, hstart, hfinish, horient, hlim, htracks, hreturned⟩

/-- **Taking a path adds one that has not been taken**, which is no lighter than those before, and gives
the flow along it. -/
theorem Pursues.taken (hq : q.Proper) (hlimit : config.maxGraphEdges ≤ FlowGraph.edgeBound)
    (hv : v.Pursues config q walks e) {best : Candidate}
    (hnext : e.next v.graph = .ok (some (best, e'))) :
    Pursues config q (walks ++ [best.walk]) { v with enumeration := some e' } e' ∧
      ∃ r, v.graph.walkResult? e'.orientation v.pathDirection e'.start best.walk = some r ∧
        q.Reports r best.walk := by
  have hcarries := hv.carries hq hlimit
  obtain ⟨htracks, hpath, -⟩ := hv.tracks.next hcarries hnext
  obtain ⟨queue, -, -, rfl⟩ := PathEnumeration.next_eq_some_iff.mp hnext
  have hp : v.graph.Path e.orientation e.start e.finish best.walk := hcarries.paths.mpr hpath
  have hne : e.finish ≠ e.start := by
    rw [hv.start, hv.finish]
    exact hq.ends.symm
  obtain ⟨r, hr, halong, hdirection, hstart, hfinish⟩ :=
    hp.walks.walkResult?_along hcarries.sound hcarries.measured hp.head hp.last hp.nodup
      (hp.two_le_length hne) v.pathDirection
  have hdir : v.pathDirection = q.direction.flowDirection := by
    unfold pathDirection
    rw [hv.kind]
  refine ⟨{ hv with tracks := htracks, returned := congrArg (· ++ [best.walk]) hv.returned }, r, hr,
    hdirection.trans hdir, hstart.trans hv.start, hfinish.trans hv.finish,
    hv.isPath_iff.mp hpath, ?_⟩
  rw [← hv.orientation]
  exact hv.grown.along hq.index hp.walks halong

/-- When there is nothing to take, all paths have been taken. -/
theorem Pursues.mem_of_next (hv : v.Pursues config q walks e) (hnext : e.next v.graph = .ok none)
    {w : List TypeName} (hw : q.IsPath w) : w ∈ walks := by
  rw [← hv.returned]
  exact hv.tracks.mem_returned (PathEnumeration.next_eq_none_iff.mp hnext) (hv.isPath_iff.mpr hw)

end FlowSession

end PolicyReach
