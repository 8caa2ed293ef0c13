import PolicyReach.Proofs.Flow.Growth
import PolicyReach.Proofs.Flow.PathEnumeration
import PolicyReach.Proofs.Procedure

/-!
# Growing a graph and taking a path, in place

A graph is grown edge by edge, and a path is taken candidate by candidate. Both have a limit, which is
checked before the first write: for a graph by counting the edges that it does not have yet, for a queue
by counting the candidates that would be put there.

* `Grown.edgeCount_add`: the edges counted beforehand are as many as the graph then has;
* **`InPlace.exec_grow`**, **`InPlace.exec_next`**: growing and taking change all or nothing.
-/

namespace PolicyReach

open Procedure

namespace FlowGraph

variable {g index : FlowGraph} {root : TypeName} {limit : Nat} {l : List Edge}

/-- The ends of edges in a list that the graph has no edge between. -/
def newEnds (g : FlowGraph) (l : List Edge) : OrdSet (KeyPair TypeName TypeName) :=
  .ofList ((l.map Edge.key).filter fun k => (g.edge? k.first k.second).isNone)

theorem mem_newEnds {k : KeyPair TypeName TypeName} :
    k ∈ g.newEnds l ↔ ∃ e ∈ l, g.edge? e.source e.target = none ∧ e.key = k := by
  simp only [newEnds, OrdSet.mem_ofList, List.mem_filter, List.mem_map, Option.isNone_iff_eq_none]
  constructor
  · rintro ⟨⟨e, he, rfl⟩, hnone⟩
    exact ⟨e, he, hnone, rfl⟩
  · rintro ⟨e, he, hnone, rfl⟩
    exact ⟨⟨e, he, rfl⟩, hnone⟩

namespace Grown

/-- Of the edges selected, a graph lacks those between whose ends it has none. -/
theorem not_mem_edges_iff (hi : index.Sound) (hg : Grown limit index g) {e : Edge}
    (he : e ∈ index.select root) : e ∉ g.edges ↔ g.edge? e.source e.target = none := by
  rw [hg.sound.mem_edges_iff]
  constructor
  · intro hne
    cases hf : g.edge? e.source e.target with
    | none => rfl
    | some f =>
      -- both are the edge that the index has there
      have hsame : e = f := Option.some.inj ((arc_of_mem_select hi he).symm.trans (hg.edges hf))
      exact absurd (hsame ▸ hf) hne
  · intro hnone hsome
    exact nomatch hnone.symm.trans hsome

theorem size_newEnds (hi : index.Sound) (hg : Grown limit index g) (root : TypeName) :
    (g.newEnds (index.select root)).size =
      ((index.select root).toFinset \ g.edges.toFinset).card := by
  have hends : (g.newEnds (index.select root)).toList.toFinset =
      ((index.select root).toFinset \ g.edges.toFinset).image Edge.key := by
    ext k
    simp only [List.mem_toFinset, OrdSet.mem_toList, mem_newEnds, Finset.mem_image, Finset.mem_sdiff,
      and_assoc]
    exact exists_congr fun e => and_congr_right fun he =>
      and_congr_left fun _ => (hg.not_mem_edges_iff hi he).symm
  have hselected {e : Edge} (he : e ∈ (index.select root).toFinset \ g.edges.toFinset) :
      index.edge? e.key.first e.key.second = some e :=
    arc_of_mem_select hi (List.mem_toFinset.mp (Finset.mem_sdiff.mp he).1)
  have hinj : Set.InjOn Edge.key
      (((index.select root).toFinset \ g.edges.toFinset : Finset Edge) : Set Edge) := by
    intro e he f hf hkey
    have hf' := hselected (Finset.mem_coe.mp hf)
    rw [← hkey, hselected (Finset.mem_coe.mp he)] at hf'
    exact Option.some.inj hf'
  rw [← OrdSet.length_toList, ← List.toFinset_card_of_nodup (OrdSet.nodup_toList _), hends,
    Finset.card_image_of_injOn hinj]

/-- **The edges counted beforehand**, those of the graph and those that it lacks, are as many as the graph
has when they have been inserted. -/
theorem edgeCount_add (hi : index.Sound) (hg : Grown limit index g) (root : TypeName) :
    g.edgeCount + (g.newEnds (index.select root)).size =
      (g.insertEdges (index.select root)).edgeCount := by
  calc g.edgeCount + (g.newEnds (index.select root)).size
      = g.edges.toFinset.card + ((index.select root).toFinset \ g.edges.toFinset).card := by
        rw [hg.size_newEnds hi, List.toFinset_card_of_nodup hg.sound.nodup_edges, edgeCount]
    _ = (needed index g root).card := by
        rw [Nat.add_comm, Finset.card_sdiff_add_card, Finset.union_comm, needed]
    _ = (g.insertEdges (index.select root)).edgeCount := hg.card_needed hi

end Grown

end FlowGraph

namespace InPlace

/-- Grow a graph by what the index holds around `root`. The limit is checked before any edge goes in. -/
def grow (limit : Nat) (index : FlowGraph) (root : TypeName) : Procedure FlowGraph Unit := do
  let g ← get
  if g.roots.contains root then
    pure ()
  else
    let additions := index.select root
    let count := g.edgeCount + (g.newEnds additions).size
    if limit < count then
      throw (.allocation (.graphEdges count limit))
    else
      forM additions fun e => modify fun g => g.insertEdge e
      modify fun g => g.addRoot root

/-- **Growing changes all or nothing**, and gives the graph that it should. -/
theorem exec_grow {limit : Nat} {index g : FlowGraph} (hi : index.Sound)
    (hg : FlowGraph.Grown limit index g) (root : TypeName) :
    exec (grow limit index root) g =
      settle g ((index.grow limit g root).map fun g' => ((), g')) := by
  unfold grow FlowGraph.grow
  rw [exec_get_bind]
  by_cases hroot : g.roots.contains root = true
  · rw [if_pos hroot, if_pos hroot]
    rfl
  · rw [if_neg hroot, if_neg hroot]
    dsimp only
    rw [hg.edgeCount_add hi, FlowGraph.checkLimit]
    by_cases hlimit : limit < (g.insertEdges (index.select root)).edgeCount
    · rw [if_pos hlimit, if_pos hlimit]
      rfl
    · rw [if_neg hlimit, if_neg hlimit, exec_bind_ok (exec_forM_modify _ _ g)]
      rfl

/-- Take the next path; none when all are taken. The limit is checked before the path leaves the queue. -/
def next (g : FlowGraph) : Procedure PathEnumeration (Option Candidate) := do
  let e ← get
  match e.queue with
  | [] => pure none
  | best :: _ =>
    let found := e.deviations g best.walk
    let queued := e.queue.length - 1 + found.length
    if e.limit < queued then
      throw (.allocation (.candidates e.start e.finish queued e.limit))
    else
      modify fun e => { e with queue := e.queue.tail }
      modify fun e => { e with returned := e.returned ++ [best.walk] }
      forM found fun c => modify fun e => e.push c
      pure (some best)

/-- **Taking changes all or nothing**, and takes the path that it should. -/
theorem exec_next (g : FlowGraph) (e : PathEnumeration) :
    exec (next g) e =
      settle e ((e.next g).map fun taken =>
        (taken.map Prod.fst, taken.elim e Prod.snd)) := by
  unfold next PathEnumeration.next
  rw [exec_get_bind]
  cases hqueue : e.queue with
  | nil => rfl
  | cons best rest =>
    dsimp only
    rw [List.length_cons, Nat.add_sub_cancel]
    by_cases hlimit : e.limit < rest.length + (e.deviations g best.walk).length
    · rw [if_pos hlimit, if_pos hlimit]
      rfl
    · rw [if_neg hlimit, if_neg hlimit, exec_bind_ok (exec_modify _ e), exec_bind_ok (exec_modify _ _),
        exec_bind_ok (exec_forM_modify _ _ _), hqueue]
      rfl

end InPlace

end PolicyReach
