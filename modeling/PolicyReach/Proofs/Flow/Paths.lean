import Mathlib.Data.List.Permutation
import Mathlib.Data.List.Sublists
import PolicyReach.Proofs.Flow.Results

/-!
# Simple paths

A path is a route that repeats no type (`FlowGraph.Path`). It is taken apart at a type on it: what
stands before is a `Stem`, which a search from the type can complete in another way.

* `Path.eq_of_prefix`: no path begins with another one;
* **`Stem.path`**, `Path.spur`: what a search completes a stem to is a path, and every path is its
  stem with what such a search may walk;
* `Path.mem_arrangements`: the paths of a graph are finitely many.
-/

namespace PolicyReach

namespace FlowGraph

variable {g : FlowGraph} {o : Orientation} {a b source : TypeName} {before l m : List TypeName}

/-- A route from `a` to `b` that repeats no type. -/
structure Path (g : FlowGraph) (o : Orientation) (a b : TypeName) (walk : List TypeName) : Prop
    extends Route g o a b walk where
  nodup : walk.Nodup

/-- A walk from `a` to `source` that may be gone on with: the types on it are passable but for `a`,
and none is repeated. -/
structure Stem (g : FlowGraph) (o : Orientation) (a : TypeName) (before : List TypeName)
    (source : TypeName) : Prop where
  head : (before ++ [source]).head? = some a
  walks : g.Walks o (before ++ [source])
  passes : ∀ x ∈ before ++ [source], x = a ∨ g.criteria.isPassable x = true
  nodup : (before ++ [source]).Nodup

theorem stem_nil (g : FlowGraph) (o : Orientation) (a : TypeName) : g.Stem o a [] a where
  head := rfl
  walks := List.isChain_singleton _
  passes _ hx := Or.inl (List.mem_singleton.mp hx)
  nodup := List.nodup_singleton _

/-- A path passes through its first type and passable ones only. -/
theorem Path.passes (h : g.Path o a b l) : ∀ x ∈ l.dropLast, x = a ∨ g.criteria.isPassable x = true :=
  fun x hx => (mem_dropLast_cases h.head hx).imp_right (h.inner x)

theorem path_of_passes (hhead : l.head? = some a) (hlast : l.getLast? = some b) (hw : g.Walks o l)
    (hpass : ∀ x ∈ l.dropLast, x = a ∨ g.criteria.isPassable x = true) (hn : l.Nodup) :
    g.Path o a b l := by
  refine ⟨⟨hhead, hlast, hw, fun x hx => ?_⟩, hn⟩
  refine (hpass x (mem_dropLast_of_inner hx)).resolve_left fun heq => ?_
  obtain ⟨rest, rfl⟩ := List.head?_eq_some_iff.mp hhead
  have hmem : x ∈ rest := List.dropLast_subset _ hx
  exact (List.nodup_cons.mp hn).1 (heq ▸ hmem)

/-- **No path begins with another one**, as its last type stands nowhere else on it. -/
theorem Path.eq_of_prefix (hl : g.Path o a b l) (hm : g.Path o a b m) (h : l <+: m) : l = m := by
  obtain ⟨rest, rfl⟩ := h
  rcases List.eq_nil_or_concat' rest with rfl | ⟨rest, x, rfl⟩
  · exact (List.append_nil l).symm
  · have hlast : x = b := by
      have h := hm.last
      rw [← List.append_assoc, List.getLast?_concat] at h
      exact Option.some.inj h
    have hb : b ∈ l := List.mem_of_getLast? hl.last
    refine absurd rfl ((List.nodup_append.mp hm.nodup).2.2 b hb b ?_)
    exact List.mem_append_right _ (List.mem_singleton.mpr hlast.symm)

/-! ## Taking a path apart -/

/-- A path is a stem up to each type on it but the last. -/
theorem Path.stem {y : TypeName} (h : g.Path o a b (before ++ source :: y :: m)) :
    g.Stem o a before source where
  head := by
    have hhead := h.head
    rw [List.append_cons, List.head?_append, Option.or_of_isSome] at hhead
    · exact hhead
    · exact List.isSome_head?.mpr (List.concat_ne_nil source before)
  walks := (walks_split.mp h.walks).1
  passes x hx := by
    refine h.passes x ?_
    rw [List.append_cons, List.dropLast_append_of_ne_nil (List.cons_ne_nil y m)]
    exact List.mem_append_left _ hx
  nodup := by
    have hn := h.nodup
    rw [List.append_cons] at hn
    exact hn.of_append_left

/-- A search for `b` from a type on, which keeps off what stands before it. -/
def spurSearch (g : FlowGraph) (o : Orientation) (b : TypeName) (before : List TypeName)
    (source : TypeName) (excluded : List (TypeName × TypeName)) : Search :=
  { graph := g, orientation := o, source, target := some b, excludedTypes := before,
    excludedHops := excluded }

variable {excluded : List (TypeName × TypeName)}

/-- **A stem is completed to a path** by what a search from its last type may walk. -/
theorem Stem.path (hs : g.Stem o a before source) {n : Nat}
    (hw : (g.spurSearch o b before source excluded).Walk l b n) (hn : l.Nodup) :
    g.Path o a b (before ++ l) := by
  obtain ⟨hhead, hlast, hhops, -⟩ := Search.walk_iff.mp hw
  obtain ⟨hwalks, hentered, -, hgo⟩ := Search.hops_iff.mp hhops
  obtain ⟨m, rfl⟩ := List.head?_eq_some_iff.mp hhead
  have hnodup := List.nodup_append.mp hs.nodup
  refine path_of_passes ?_ ?_ (walks_split.mpr ⟨hs.walks, hwalks⟩) (fun x hx => ?_) ?_
  · have hstem := hs.head
    rw [List.append_cons, List.head?_append, Option.or_of_isSome]
    · exact hstem
    · exact List.isSome_head?.mpr (List.concat_ne_nil _ before)
  · rw [List.getLast?_append, hlast]
    rfl
  · rw [List.dropLast_append_of_ne_nil (List.cons_ne_nil _ m)] at hx
    rcases List.mem_append.mp hx with hx | hx
    · exact hs.passes x (List.mem_append_left _ hx)
    · obtain ⟨hexp, -⟩ := hgo x hx
      rcases Search.expands_iff.mp hexp with rfl | hpass
      · exact hs.passes _ (List.mem_append_right _ List.mem_cons_self)
      · exact Or.inr hpass
  · refine List.nodup_append.mpr ⟨hnodup.1, hn, fun x hx y hy heq => ?_⟩
    obtain rfl := heq
    rcases List.mem_cons.mp hy with rfl | hy
    · exact hnodup.2.2 _ hx _ (List.mem_singleton.mpr rfl) rfl
    · exact hentered x hy hx

/-- Every path is its stem with what a search from there may walk, unless a hop is excluded. -/
theorem Path.spur (h : g.Path o a b (before ++ source :: m))
    (hex : ∀ x ∈ hops (source :: m), x ∉ excluded) :
    (g.spurSearch o b before source excluded).Walk (source :: m) b (g.cost o (source :: m)) := by
  obtain ⟨-, hn, hdisjoint⟩ := List.nodup_append.mp h.nodup
  have hlast := h.last
  rw [List.getLast?_append_of_ne_nil _ (List.cons_ne_nil _ m)] at hlast
  refine Search.walk_iff.mpr ⟨rfl, hlast, Search.hops_iff.mpr ⟨(walks_split.mp h.walks).2,
    fun x hx hmem => ?_, hex, fun x hx => ⟨?_, fun htarget => ?_⟩⟩, rfl⟩
  · exact hdisjoint x hmem x (List.mem_cons_of_mem _ hx) rfl
  · rw [Search.expands_iff]
    have hmem : x ∈ (before ++ source :: m).dropLast := by
      rw [List.dropLast_append_of_ne_nil (List.cons_ne_nil _ m)]
      exact List.mem_append_right _ hx
    refine (h.passes x hmem).imp_left fun heq => ?_
    cases before with
    | nil => exact heq.trans (Option.some.inj h.head).symm
    | cons y before =>
      obtain rfl : y = a := Option.some.inj h.head
      exact absurd heq.symm (hdisjoint y List.mem_cons_self x (List.dropLast_subset _ hx))
  · obtain rfl : b = x := Option.some.inj htarget
    obtain ⟨init, hinit⟩ := List.getLast?_eq_some_iff.mp hlast
    rw [hinit, List.dropLast_concat] at hx
    rw [hinit] at hn
    exact (List.nodup_append.mp hn).2.2 b hx b (List.mem_singleton.mpr rfl) rfl

/-- **A search from a stem finds a lightest way to complete it**, and finds one wherever there is
one. -/
theorem Stem.walkTo? (hg : g.Sound) (hm : g.Measured) (hs : g.Stem o a before source)
    (excluded : List (TypeName × TypeName)) :
    (∀ {l}, (g.spurSearch o b before source excluded).run.walkTo? b = some l →
      ∃ m, l = source :: m ∧ g.Path o a b (before ++ source :: m) ∧
        (∀ x ∈ hops (source :: m), x ∉ excluded) ∧
        ∀ {m'}, g.Path o a b (before ++ source :: m') →
          (∀ x ∈ hops (source :: m'), x ∉ excluded) →
          g.cost o (before ++ source :: m) ≤ g.cost o (before ++ source :: m')) ∧
      ∀ {m}, g.Path o a b (before ++ source :: m) →
        (∀ x ∈ hops (source :: m), x ∉ excluded) →
        ∃ l, (g.spurSearch o b before source excluded).run.walkTo? b = some l := by
  refine ⟨fun {l} hl => ?_, fun {m} hp hex =>
    Search.exists_walkTo? hg.closed hm (Or.inr rfl) (hp.spur hex)⟩
  obtain ⟨n, hwalk, hn, hmin⟩ := Search.walkTo?_eq_some
    (q := g.spurSearch o b before source excluded) hg.closed hm (Or.inr rfl) hl
  obtain ⟨hhead, -, hhops, hcost⟩ := Search.walk_iff.mp hwalk
  obtain ⟨-, -, hex, -⟩ := Search.hops_iff.mp hhops
  have hhead' : l.head? = some source := hhead
  have hcost' : g.cost o l = n := hcost
  obtain ⟨m, rfl⟩ := List.head?_eq_some_iff.mp hhead'
  refine ⟨m, rfl, hs.path hwalk hn, hex, fun {m'} hp hex' => ?_⟩
  rw [cost_split, cost_split g o source m', hcost']
  exact Nat.add_le_add_left (hmin (hp.spur hex')) _

/-! ## How many paths there are -/

/-- All lists that take types of the graph once at most. -/
def arrangements (g : FlowGraph) : List (List TypeName) :=
  g.nodes.toList.sublists.flatMap List.permutations

/-- **The paths of a graph are finitely many.** -/
theorem Path.mem_arrangements (hg : g.Sound) (h : g.Path o a b l) (hne : a ≠ b) :
    l ∈ g.arrangements := by
  have hsub : l ⊆ g.nodes.toList := by
    intro x hx
    rw [OrdSet.mem_toList]
    obtain ⟨rest, rfl⟩ := List.head?_eq_some_iff.mp h.head
    rcases List.mem_cons.mp hx with rfl | hx
    · cases rest with
      | nil => exact absurd (Option.some.inj h.last) hne
      | cons y rest =>
        obtain ⟨e, he⟩ := walks_iff_hops.mp h.walks (x, y) List.mem_cons_self
        exact (hg.arc_nodes he).1
    · obtain ⟨y, hy⟩ := exists_mem_hops_to (l := a :: rest) hx
      obtain ⟨e, he⟩ := walks_iff_hops.mp h.walks _ hy
      exact (hg.arc_nodes he).2
  obtain ⟨nodes, hperm, hsublist⟩ := List.subperm_of_subset h.nodup hsub
  exact List.mem_flatMap.mpr
    ⟨nodes, List.mem_sublists.mpr hsublist, List.mem_permutations.mpr hperm.symm⟩

/-! ## The paths of a grown graph -/

/-- **A graph has the paths from its roots that the index has.** -/
theorem Grown.path_iff {index : FlowGraph} {limit : Nat} (hi : index.Sound)
    (hg : Grown limit index g) {direction : ReachDirection}
    (hscope : index.criteria.scope = .transitive direction) (hroot : a ∈ g.roots) :
    g.Path direction.orientation a b l ↔ index.Path direction.orientation a b l := by
  constructor
  · exact fun h => ⟨(hg.route_iff hi hscope hroot).mp h.toRoute, h.nodup⟩
  · exact fun h => ⟨(hg.route_iff hi hscope hroot).mpr h.toRoute, h.nodup⟩

end FlowGraph

end PolicyReach
