import PolicyReach.Proofs.Flow.InPlace

/-!
# A grown graph is what its roots need

Whatever a graph has been grown from, in whatever order, and whatever of that has failed: it holds what
its index needs around its roots, and nothing else. The roots determine the graph, down to the way it is
kept, and say whether it can be grown further.

* `Trim.ext`: a graph that keeps no fan without edges is determined by what can be looked up in it;
* `Spanned.grow`, **`Spanned.eq_of_roots`**: growing keeps a graph spanned by its roots, and there is one
  such graph only for given roots;
* `exec_grow_error_iff`: growing fails where the edges needed around all roots are too many;
* **`Policy.growth_exact`**: what there is after any sequence of starts.
-/

namespace PolicyReach

open Procedure

namespace FlowGraph

variable {g g' index : FlowGraph} {root t : TypeName} {e : Edge} {limit : Nat}

/-! ## Graphs that hold the same are the same -/

/-- A graph keeps no fan without edges. -/
structure Trim (g : FlowGraph) : Prop where
  successors : ∀ {a fan}, g.successors.get? a = some fan → fan ≠ ∅
  predecessors : ∀ {a fan}, g.predecessors.get? a = some fan → fan ≠ ∅

theorem ne_empty_addToSide {side : OrdMap TypeName Fan} {n k : TypeName} {e : Edge}
    (h : ∀ {a fan}, side.get? a = some fan → fan ≠ ∅) {a : TypeName} {fan : Fan}
    (hfan : (addToSide side n k e).get? a = some fan) : fan ≠ ∅ := by
  unfold addToSide at hfan
  rw [OrdMap.get?_insert] at hfan
  split at hfan
  · rintro rfl
    have hget := congrArg (OrdMap.get? · k) (Option.some.inj hfan)
    simp only [OrdMap.get?_insertWith, if_true] at hget
    cases hget
  · exact h hfan

theorem Trim.insertEdge (hg : g.Trim) (e : Edge) : (g.insertEdge e).Trim :=
  ⟨ne_empty_addToSide hg.successors, ne_empty_addToSide hg.predecessors⟩

theorem Trim.insertEdges (l : List Edge) {g : FlowGraph} (hg : g.Trim) : (g.insertEdges l).Trim := by
  induction l generalizing g with
  | nil => exact hg
  | cons e l ih => exact ih (hg.insertEdge e)

theorem trim_empty (criteria : Criteria) : (empty criteria).Trim where
  successors hfan := nomatch (OrdMap.get?_empty _).symm.trans hfan
  predecessors hfan := nomatch (OrdMap.get?_empty _).symm.trans hfan

/-- A side without fans that are empty is determined by its lookups. -/
theorem side_ext {side side' : OrdMap TypeName Fan}
    (h : ∀ {a fan}, side.get? a = some fan → fan ≠ ∅)
    (h' : ∀ {a fan}, side'.get? a = some fan → fan ≠ ∅)
    (hget : ∀ a b, ((side.get? a).getD ∅).get? b = ((side'.get? a).getD ∅).get? b) :
    side = side' := by
  refine OrdMap.ext fun a => ?_
  have hfan : (side.get? a).getD ∅ = (side'.get? a).getD ∅ := OrdMap.ext (hget a)
  cases hs : side.get? a with
  | none =>
    cases hs' : side'.get? a with
    | none => rfl
    | some fan' =>
      rw [hs, hs'] at hfan
      exact absurd hfan.symm (h' hs')
  | some fan =>
    cases hs' : side'.get? a with
    | none =>
      rw [hs, hs'] at hfan
      exact absurd hfan (h hs)
    | some fan' =>
      rw [hs, hs'] at hfan
      exact congrArg some hfan

/-- **A trim graph is determined by what can be looked up in it.** -/
theorem Trim.ext (hg : g.Trim) (hg' : g'.Trim) (hcriteria : g.criteria = g'.criteria)
    (hnodes : g.nodes = g'.nodes) (hroots : g.roots = g'.roots)
    (harcs : ∀ o a b, g.arc? o a b = g'.arc? o a b) : g = g' := by
  have hsuccessors : g.successors = g'.successors :=
    side_ext hg.successors hg'.successors (harcs .forward)
  have hpredecessors : g.predecessors = g'.predecessors :=
    side_ext hg.predecessors hg'.predecessors (harcs .backward)
  cases g
  cases g'
  simp only at hcriteria hnodes hroots hsuccessors hpredecessors
  rw [hcriteria, hnodes, hroots, hsuccessors, hpredecessors]

/-! ## Graphs that are spanned by their roots -/

/-- `g` has been grown from the index: besides what its roots need it holds nothing. -/
structure Spanned (limit : Nat) (index g : FlowGraph) : Prop extends Grown limit index g where
  trim : g.Trim
  covered : ∀ {e}, e ∈ g.edges → ∃ r ∈ g.roots, e ∈ index.select r
  filed : ∀ {t}, t ∈ g.nodes ↔ t ∈ g.roots ∨ ∃ e ∈ g.edges, t = e.source ∨ t = e.target

theorem spanned_empty (limit : Nat) (index : FlowGraph) :
    Spanned limit index (empty index.criteria) where
  toGrown := grown_empty limit index
  trim := trim_empty index.criteria
  covered he := nomatch he
  filed {t} := by
    constructor
    · exact fun ht => absurd ht (OrdSet.not_mem_empty t)
    · rintro (hroot | ⟨e, he, -⟩)
      · exact absurd hroot (OrdSet.not_mem_empty t)
      · exact nomatch he

namespace Spanned

/-- The edges of a graph are those that are selected around its roots. -/
theorem mem_edges_iff (hg : Spanned limit index g) :
    e ∈ g.edges ↔ ∃ r ∈ g.roots, e ∈ index.select r :=
  ⟨hg.covered, fun ⟨_, hr, he⟩ => mem_edges.mpr ⟨_, _, hg.selected hr he⟩⟩

/-- **Growing keeps a graph spanned by its roots.** -/
theorem grow (hi : index.Sound) (hg : Spanned limit index g)
    (h : index.grow limit g root = .ok g') : Spanned limit index g' := by
  obtain ⟨hgrown, -, -⟩ := grow_grown hi hg.toGrown h
  rcases grow_cases h with ⟨-, rfl⟩ | ⟨-, rfl, -⟩
  · exact hg
  · have hedges {e : Edge} : e ∈ ((g.insertEdges (index.select root)).addRoot root).edges ↔
        e ∈ g.edges ∨ e ∈ index.select root :=
      hg.mem_edges_insertEdges hi
    have hroots {r : TypeName} : r ∈ ((g.insertEdges (index.select root)).addRoot root).roots ↔
        r = root ∨ r ∈ g.roots :=
      mem_roots_of_grow h r
    refine ⟨hgrown, ⟨hg.trim.insertEdges _ |>.successors, hg.trim.insertEdges _ |>.predecessors⟩,
      fun {e} he => ?_, fun {t} => ?_⟩
    · rcases hedges.mp he with hold | hnew
      · obtain ⟨r, hr, her⟩ := hg.covered hold
        exact ⟨r, hroots.mpr (Or.inr hr), her⟩
      · exact ⟨root, hroots.mpr (Or.inl rfl), hnew⟩
    · have hnodes : t ∈ ((g.insertEdges (index.select root)).addRoot root).nodes ↔
          t = root ∨ t ∈ g.nodes ∨ ∃ e ∈ index.select root, t = e.source ∨ t = e.target :=
        OrdSet.mem_insert.trans (or_congr_right (mem_nodes_insertEdges _ g))
      rw [hnodes, hg.filed, hroots]
      simp only [hedges, or_and_right, exists_or, or_assoc]

/-- **A graph is determined by its roots.** -/
theorem eq_of_roots (hg : Spanned limit index g) (hg' : Spanned limit index g')
    (hroots : ∀ t, t ∈ g.roots ↔ t ∈ g'.roots) : g = g' := by
  have hedges (e : Edge) : e ∈ g.edges ↔ e ∈ g'.edges := by
    rw [hg.mem_edges_iff, hg'.mem_edges_iff]
    simp only [hroots]
  have harc (a b : TypeName) : g.arc? .forward a b = g'.arc? .forward a b := by
    refine Option.ext fun e => ?_
    have hlookup {x : FlowGraph} (hx : x.Sound) :
        x.arc? .forward a b = some e ↔ e ∈ x.edges ∧ e.source = a ∧ e.target = b := by
      constructor
      · intro he
        exact ⟨mem_edges.mpr ⟨a, b, he⟩, hx.ends a b e he⟩
      · rintro ⟨he, rfl, rfl⟩
        exact hx.mem_edges_iff.mp he
    rw [hlookup hg.sound, hlookup hg'.sound, hedges]
  refine hg.trim.ext hg'.trim (hg.criteria.trans hg'.criteria.symm) (OrdSet.ext fun t => ?_)
    (OrdSet.ext hroots) fun o a b => ?_
  · rw [hg.filed, hg'.filed]
    simp only [hroots, hedges]
  · cases o with
    | forward => exact harc a b
    | backward => rw [hg.sound.mirrored, hg'.sound.mirrored, harc]

end Spanned

/-! ## When a graph cannot be grown further -/

/-- The edges that the index needs around the roots of a list. -/
def picked (index : FlowGraph) (roots : List TypeName) : Finset Edge :=
  (roots.flatMap index.select).toFinset

theorem mem_picked {roots : List TypeName} :
    e ∈ index.picked roots ↔ ∃ r ∈ roots, e ∈ index.select r := by
  rw [picked, List.mem_toFinset, List.mem_flatMap]

/-- What is needed to grow a graph is what all its roots need, and the new one. -/
theorem Spanned.needed_eq (hg : Spanned limit index g) {roots : List TypeName}
    (hroots : ∀ t, t ∈ g.roots ↔ t ∈ roots) (t : TypeName) :
    needed index g t = index.picked (t :: roots) := by
  ext e
  rw [needed, Finset.mem_union, List.mem_toFinset, List.mem_toFinset, hg.mem_edges_iff, mem_picked]
  simp only [hroots, List.exists_mem_cons_iff]
  exact or_comm

end FlowGraph

/-! ## Growing a graph from one start after another -/

namespace InPlace

open FlowGraph

variable {limit : Nat} {index g : FlowGraph}

/-- What growing a graph from one start after another makes of it, where it stands. After a failure it
goes on with what that has left. -/
def growAll (limit : Nat) (index : FlowGraph) (g : FlowGraph) (starts : List TypeName) : FlowGraph :=
  starts.foldl (fun g start => (exec (grow limit index start) g).2) g

/-- The starts from which the graph is grown without failure. -/
def grownFrom (limit : Nat) (index : FlowGraph) : FlowGraph → List TypeName → List TypeName
  | _, [] => []
  | g, start :: starts =>
    match exec (grow limit index start) g with
    | (.ok _, g') => start :: grownFrom limit index g' starts
    | (.error _, g') => grownFrom limit index g' starts

/-- One start: the graph is grown and has another root, or is left as it is. -/
theorem exec_grow_cases (hi : index.Sound) (hg : Spanned limit index g) (start : TypeName) :
    (∃ g', exec (grow limit index start) g = (.ok (), g') ∧ Spanned limit index g' ∧
        ∀ t, t ∈ g'.roots ↔ t = start ∨ t ∈ g.roots) ∨
      ∃ e, exec (grow limit index start) g = (.error e, g) := by
  rw [exec_grow hi hg.toGrown]
  cases h : index.grow limit g start with
  | ok g' => exact Or.inl ⟨g', rfl, hg.grow hi h, mem_roots_of_grow h⟩
  | error e => exact Or.inr ⟨e, rfl⟩

/-- **Any number of starts** leave a graph spanned by its roots, which are the ones that it had and the
starts that succeed. -/
theorem growAll_spanned (hi : index.Sound) (starts : List TypeName) (hg : Spanned limit index g) :
    Spanned limit index (growAll limit index g starts) ∧
      ∀ t, t ∈ (growAll limit index g starts).roots ↔
        t ∈ g.roots ∨ t ∈ grownFrom limit index g starts := by
  induction starts generalizing g with
  | nil => exact ⟨hg, fun t => (or_iff_left List.not_mem_nil).symm⟩
  | cons start starts ih =>
    have hstep : growAll limit index g (start :: starts) =
        growAll limit index (exec (grow limit index start) g).2 starts := rfl
    rw [hstep, grownFrom]
    rcases exec_grow_cases hi hg start with ⟨g', hok, hg', hroots⟩ | ⟨e, herror⟩
    · rw [hok]
      obtain ⟨hspanned, hall⟩ := ih hg'
      refine ⟨hspanned, fun t => ?_⟩
      rw [hall, hroots, List.mem_cons]
      tauto
    · rw [herror]
      exact ih hg

/-- **Growing fails exactly where the edges that all roots need, and the new one, are too many**, and then
the graph is left as it is. -/
theorem exec_grow_error_iff (hi : index.Sound) (hg : Spanned limit index g) {roots : List TypeName}
    (hroots : ∀ t, t ∈ g.roots ↔ t ∈ roots) {start : TypeName} {e : AnalysisError}
    {left : FlowGraph} :
    exec (grow limit index start) g = (.error e, left) ↔
      limit < (index.picked (start :: roots)).card ∧
        e = .allocation (.graphEdges (index.picked (start :: roots)).card limit) ∧ left = g := by
  have hiff (e : AnalysisError) : index.grow limit g start = .error e ↔ _ :=
    hg.toGrown.grow_error_iff hi
  rw [hg.needed_eq hroots] at hiff
  rw [exec_grow hi hg.toGrown]
  cases h : index.grow limit g start with
  | ok g' =>
    constructor
    · exact fun heq => nomatch congrArg Prod.fst heq
    · rintro ⟨hlt, rfl, -⟩
      exact nomatch h.symm.trans ((hiff _).mpr ⟨hlt, rfl⟩)
  | error e' =>
    obtain ⟨hlt, rfl⟩ := (hiff e').mp h
    show (Except.error _, g) = (Except.error e, left) ↔ _
    rw [Prod.mk.injEq, Except.error.injEq, eq_comm, eq_comm (a := g)]
    exact ⟨fun ⟨he, hleft⟩ => ⟨hlt, he, hleft⟩, fun ⟨_, he, hleft⟩ => ⟨he, hleft⟩⟩

end InPlace

namespace FlowGraph

/-- `g` holds what the index needs around the roots of a list, each edge as it is in the index, and
nothing else. -/
structure Spans (index g : FlowGraph) (roots : List TypeName) : Prop where
  rooted : ∀ t, t ∈ g.roots ↔ t ∈ roots
  edges : ∀ e, e ∈ g.edges ↔ ∃ r ∈ roots, e ∈ index.select r
  copied : ∀ a b e, g.edge? a b = some e → index.edge? a b = some e
  nodes : ∀ t, t ∈ g.nodes ↔ t ∈ roots ∨ ∃ e ∈ g.edges, t = e.source ∨ t = e.target

theorem Spanned.spans {limit : Nat} {index g : FlowGraph} (hg : Spanned limit index g)
    {roots : List TypeName} (hroots : ∀ t, t ∈ g.roots ↔ t ∈ roots) : index.Spans g roots where
  rooted := hroots
  edges e := by
    rw [hg.mem_edges_iff]
    simp only [hroots]
  copied _ _ _ he := hg.edges he
  nodes t := by rw [hg.filed, hroots]

theorem selectFrom_spanned {limit : Nat} {index g : FlowGraph} {first : TypeName} (hi : index.Sound)
    (h : index.selectFrom limit first = .ok g) :
    Spanned limit index g ∧ ∀ t, t ∈ g.roots ↔ t = first := by
  refine ⟨(spanned_empty limit index).grow hi h, fun t => ?_⟩
  rw [mem_roots_of_grow h]
  exact or_iff_left (OrdSet.not_mem_empty t)

end FlowGraph

open FlowGraph InPlace in
/-- **What there is after any sequence of starts**, of a graph grown from a scanned index. It is spanned
by the first start and the others that succeed, within the limit; a start fails exactly where what all of
them need is beyond the limit, and leaves the graph as it is; and the same successful starts, in any order
and however often, give the same graph. -/
theorem Policy.growth_exact (p : Policy) (m : PermissionMap) (criteria : Criteria) (limit : Nat) :
    let index := p.flows m criteria
    (∀ root e, e ∈ index.select root ↔ index.Needs root e) ∧
    (∀ first e, index.selectFrom limit first = .error e ↔
      limit < (index.picked [first]).card ∧
        e = .allocation (.graphEdges (index.picked [first]).card limit)) ∧
    (∀ first g, index.selectFrom limit first = .ok g → ∀ starts,
      let roots := first :: grownFrom limit index g starts
      index.Spans (growAll limit index g starts) roots ∧
      (growAll limit index g starts).edgeCount ≤ limit ∧
      ∀ start e left, exec (grow limit index start) (growAll limit index g starts) = (.error e, left) ↔
        limit < (index.picked (start :: roots)).card ∧
          e = .allocation (.graphEdges (index.picked (start :: roots)).card limit) ∧
          left = growAll limit index g starts) ∧
    ∀ first g first' g', index.selectFrom limit first = .ok g → index.selectFrom limit first' = .ok g' →
      ∀ starts starts',
        (∀ t, t ∈ first :: grownFrom limit index g starts ↔
          t ∈ first' :: grownFrom limit index g' starts') →
        growAll limit index g starts = growAll limit index g' starts' := by
  intro index
  have hi : index.Sound := p.flows_sound m criteria
  have hrun {first : TypeName} {g : FlowGraph} (h : index.selectFrom limit first = .ok g)
      (starts : List TypeName) : Spanned limit index (growAll limit index g starts) ∧
        ∀ t, t ∈ (growAll limit index g starts).roots ↔
          t ∈ first :: grownFrom limit index g starts := by
    obtain ⟨hg, hroots⟩ := selectFrom_spanned hi h
    obtain ⟨hspanned, hall⟩ := growAll_spanned hi starts hg
    exact ⟨hspanned, fun t => by rw [hall, hroots, List.mem_cons]⟩
  refine ⟨fun root e => mem_select_iff hi, fun first e => ?_, fun first g h starts => ?_,
    fun first g first' g' h h' starts starts' hsame => ?_⟩
  · have hnone (t : TypeName) : t ∈ (FlowGraph.empty index.criteria).roots ↔ t ∈ ([] : List TypeName) :=
      iff_of_false (OrdSet.not_mem_empty t) List.not_mem_nil
    rw [← (spanned_empty limit index).needed_eq hnone]
    exact (grown_empty limit index).grow_error_iff hi
  · obtain ⟨hspanned, hroots⟩ := hrun h starts
    exact ⟨hspanned.spans hroots, hspanned.bounded,
      fun start e left => exec_grow_error_iff hi hspanned hroots⟩
  · obtain ⟨hspanned, hroots⟩ := hrun h starts
    obtain ⟨hspanned', hroots'⟩ := hrun h' starts'
    exact hspanned.eq_of_roots hspanned' fun t => by rw [hroots, hroots', hsame]

open FlowGraph InPlace in
/-- The edges at `a` are as many as the limit allows; those at `b` are one more. -/
example :
    let index := Policy.sample.flows .sample ⟨∅, .direct, none⟩
    (index.selectFrom 2 ⟨"a"⟩).toOption.map (fun g =>
      (grownFrom 2 index g [⟨"b"⟩, ⟨"a"⟩], (growAll 2 index g [⟨"b"⟩, ⟨"a"⟩]).edgeCount)) =
        some ([⟨"a"⟩], 2) := by
  decide +kernel

end PolicyReach
