import Mathlib.Data.Finset.Card
import PolicyReach.Proofs.Flow.Selection

/-!
# When a graph cannot grow

Growing a graph by what its index needs around a root fails for one reason only, that the graph would
get too many edges. These are counted as a set: what the graph holds already is not counted again.

* `Sound.nodup_edges`: a graph lists every edge once;
* **`Grown.grow_error_iff`**: growing fails exactly when the edges that are needed are too many;
* `Grown.selectFrom_ok`: a graph grown from nothing needs no more than one grown from others.
-/

namespace PolicyReach

namespace FlowGraph

variable {g index : FlowGraph} {root : TypeName} {limit : Nat}

/-! ## Counting edges -/

/-- An edge is listed under its own ends, so it is listed once. -/
theorem Sound.nodup_edges (hg : g.Sound) : g.edges.Nodup := by
  have hends {a b : TypeName} {fan : Fan} {e : Edge} (ha : (a, fan) ∈ g.successors.entries)
      (hb : (b, e) ∈ fan.entries) : e.source = a ∧ e.target = b := by
    refine hg.ends a b e ?_
    show ((g.successors.get? a).getD ∅).get? b = some e
    rw [OrdMap.get?_eq_some_iff.mpr ha]
    exact OrdMap.get?_eq_some_iff.mpr hb
  unfold edges OrdMap.values
  rw [List.flatMap_map, List.nodup_flatMap]
  constructor
  · rintro ⟨a, fan⟩ ha
    refine List.Nodup.map_on ?_ fan.nodup_entries
    rintro ⟨b, e⟩ hb ⟨c, f⟩ hc rfl
    rw [← (hends ha hb).2, ← (hends ha hc).2]
  · refine g.successors.nodup_entries.imp_of_mem ?_
    rintro ⟨a, fan⟩ ⟨a', fan'⟩ ha ha' hne e he he'
    obtain ⟨⟨b, _⟩, hb, rfl⟩ := List.mem_map.mp he
    obtain ⟨⟨b', _⟩, hb', rfl⟩ := List.mem_map.mp he'
    obtain rfl : a = a' := (hends ha hb).1.symm.trans (hends ha' hb').1
    exact hne (Prod.ext rfl (Option.some.inj
      ((OrdMap.get?_eq_some_iff.mpr ha).symm.trans (OrdMap.get?_eq_some_iff.mpr ha'))))

/-- The edges of a graph and those that the index needs around a root. -/
def needed (index g : FlowGraph) (root : TypeName) : Finset Edge :=
  g.edges.toFinset ∪ (index.select root).toFinset

theorem Sound.mem_edges_iff (hg : g.Sound) {e : Edge} :
    e ∈ g.edges ↔ g.edge? e.source e.target = some e := by
  rw [mem_edges]
  constructor
  · rintro ⟨a, b, hab⟩
    obtain ⟨rfl, rfl⟩ := hg.ends a b e hab
    exact hab
  · exact fun h => ⟨_, _, h⟩

namespace Grown

/-- Inserting what is selected around a root adds that, and nothing else. -/
theorem mem_edges_insertEdges (hi : index.Sound) (hg : Grown limit index g) {e : Edge} :
    e ∈ (g.insertEdges (index.select root)).edges ↔ e ∈ g.edges ∨ e ∈ index.select root := by
  have hsel : ∀ f ∈ index.select root, index.edge? f.source f.target = some f :=
    fun f hf => arc_of_mem_select hi hf
  have hsound : (g.insertEdges (index.select root)).Sound :=
    hg.sound.insertEdges fun f hf => hi.loopless _ _ f (hsel f hf)
  rw [hsound.mem_edges_iff, hg.sound.mem_edges_iff, edge?_insertEdges hsel hg.edges]
  split
  · rename_i hnone
    rw [or_iff_left]
    intro he
    have hjoined : e ∈ (index.select root).filter (Edge.joins .forward e.source e.target) :=
      List.mem_filter.mpr ⟨he, Edge.joins_forward_iff.mpr ⟨rfl, rfl⟩⟩
    exact List.ne_nil_of_mem hjoined (List.isEmpty_iff.mp hnone)
  · rename_i hsome
    obtain ⟨f, hf⟩ := List.exists_mem_of_ne_nil _ fun hnil => hsome (List.isEmpty_iff.mpr hnil)
    obtain ⟨hmem, hj⟩ := List.mem_filter.mp hf
    obtain ⟨hsource, htarget⟩ := Edge.joins_forward_iff.mp hj
    constructor
    · intro he
      have hsame := (hsel f hmem).symm
      rw [hsource, htarget, he] at hsame
      exact Or.inr (Option.some.inj hsame ▸ hmem)
    · rintro (he | he)
      · exact hg.edges he
      · exact hsel e he

/-- A graph that has been grown from the root has all that is needed. -/
theorem needed_of_mem_roots (hg : Grown limit index g) (hroot : root ∈ g.roots) :
    needed index g root = g.edges.toFinset := by
  refine Finset.union_eq_left.mpr fun e he => ?_
  rw [List.mem_toFinset] at he ⊢
  exact mem_edges.mpr ⟨_, _, hg.selected hroot he⟩

theorem card_needed (hi : index.Sound) (hg : Grown limit index g) :
    (needed index g root).card = (g.insertEdges (index.select root)).edgeCount := by
  have hsound : (g.insertEdges (index.select root)).Sound :=
    hg.sound.insertEdges fun f hf => hi.loopless _ _ f (arc_of_mem_select hi hf)
  unfold edgeCount
  rw [← List.toFinset_card_of_nodup hsound.nodup_edges]
  congr 1
  ext e
  rw [needed, Finset.mem_union, List.mem_toFinset, List.mem_toFinset, List.mem_toFinset,
    hg.mem_edges_insertEdges hi]

/-- **Growing fails exactly when too many edges are needed.** -/
theorem grow_error_iff (hi : index.Sound) (hg : Grown limit index g) {e : AnalysisError} :
    index.grow limit g root = .error e ↔
      limit < (needed index g root).card ∧
        e = .allocation (.graphEdges (needed index g root).card limit) := by
  unfold grow
  by_cases hroot : root ∈ g.roots
  · have hle : (needed index g root).card ≤ limit := by
      rw [hg.needed_of_mem_roots hroot, List.toFinset_card_of_nodup hg.sound.nodup_edges]
      exact hg.bounded
    rw [if_pos (OrdSet.contains_eq_true_iff.mpr hroot)]
    exact ⟨(nomatch ·), fun ⟨hlt, _⟩ => absurd hlt (Nat.not_lt.mpr hle)⟩
  · rw [if_neg fun hin => hroot (OrdSet.contains_eq_true_iff.mp hin), hg.card_needed hi]
    unfold checkLimit
    split
    · rename_i hlt
      exact ⟨fun h => ⟨hlt, (Except.error.inj h).symm⟩, fun ⟨_, h⟩ => congrArg Except.error h.symm⟩
    · rename_i hle
      exact ⟨(nomatch ·), fun ⟨hlt, _⟩ => absurd hlt hle⟩

/-- Where a graph can be grown, a fresh one can be. -/
theorem selectFrom_ok (hi : index.Sound) (hg : Grown limit index g) {g' : FlowGraph}
    (h : index.grow limit g root = .ok g') : ∃ fresh, index.selectFrom limit root = .ok fresh := by
  cases hfresh : index.selectFrom limit root with
  | ok fresh => exact ⟨fresh, rfl⟩
  | error e =>
    obtain ⟨hlt, -⟩ := ((grown_empty limit index).grow_error_iff hi).mp hfresh
    have hsub : needed index (empty index.criteria) root ⊆ needed index g root := by
      refine Finset.union_subset_union_left fun f hf => ?_
      rw [List.mem_toFinset] at hf
      exact nomatch hf
    have hmany := Nat.lt_of_lt_of_le hlt (Finset.card_le_card hsub)
    exact nomatch h.symm.trans ((hg.grow_error_iff hi).mpr ⟨hmany, rfl⟩)

end Grown

end FlowGraph

end PolicyReach
