import PolicyReach.Proofs.Flow.Relation

/-!
# The shape of flow graphs

A graph keeps every edge twice, and walks follow whichever copy their orientation asks for. Insertions
keep the two in step (`Sound.insertEdges`), so all graphs that are scanned (`Policy.flows_sound`) or
grown from scanned ones can be read from either side.
-/

namespace PolicyReach

namespace FlowGraph

/-- **The two sides of a graph agree.** What they hold is filed under its own ends, which are two
different nodes. -/
structure Sound (g : FlowGraph) : Prop where
  mirrored : ∀ a b, g.arc? .backward b a = g.arc? .forward a b
  ends : ∀ a b e, g.arc? .forward a b = some e → e.source = a ∧ e.target = b
  nodes : ∀ a b e, g.arc? .forward a b = some e → a ∈ g.nodes ∧ b ∈ g.nodes
  loopless : ∀ a b e, g.arc? .forward a b = some e → a ≠ b

/-- The ends of all edges are nodes. -/
def Closed (g : FlowGraph) : Prop :=
  ∀ {o a b e}, g.arc? o a b = some e → a ∈ g.nodes ∧ b ∈ g.nodes

variable {g : FlowGraph} {o : Orientation} {a b : TypeName} {e : Edge}

namespace Sound

theorem arc_eq_edge? (hg : g.Sound) (o : Orientation) (a b : TypeName) :
    g.arc? o a b = g.orientedEdge? o a b := by
  cases o with
  | forward => rfl
  | backward => exact hg.mirrored b a

theorem near_far (hg : g.Sound) (he : g.arc? o a b = some e) : e.near o = a ∧ e.far o = b := by
  cases o with
  | forward => exact hg.ends a b e he
  | backward =>
    rw [hg.mirrored] at he
    exact (hg.ends b a e he).symm

/-- An edge is on file at either end. -/
theorem arc_iff (hg : g.Sound) :
    g.arc? o a b = some e ↔ g.edge? e.source e.target = some e ∧ e.near o = a ∧ e.far o = b := by
  rw [hg.arc_eq_edge?]
  constructor
  · intro he
    obtain ⟨rfl, rfl⟩ := hg.near_far ((hg.arc_eq_edge? o a b).trans he)
    cases o with
    | forward => exact ⟨he, rfl, rfl⟩
    | backward => exact ⟨he, rfl, rfl⟩
  · rintro ⟨he, rfl, rfl⟩
    cases o with
    | forward => exact he
    | backward => exact he

theorem arc_nodes (hg : g.Sound) (he : g.arc? o a b = some e) : a ∈ g.nodes ∧ b ∈ g.nodes := by
  cases o with
  | forward => exact hg.nodes a b e he
  | backward =>
    rw [hg.mirrored] at he
    exact (hg.nodes b a e he).symm

theorem closed (hg : g.Sound) : g.Closed := hg.arc_nodes

theorem arc_mem_edges (hg : g.Sound) (he : g.arc? o a b = some e) : e ∈ g.edges := by
  cases o with
  | forward => exact mem_edges.mpr ⟨a, b, he⟩
  | backward =>
    rw [hg.mirrored] at he
    exact mem_edges.mpr ⟨b, a, he⟩

end Sound

/-! ## What keeps the shape -/

theorem sound_empty (criteria : Criteria) : (empty criteria).Sound where
  mirrored a b := by rw [arc?_empty, arc?_empty]
  ends a b e he := nomatch (arc?_empty criteria .forward a b).symm.trans he
  nodes a b e he := nomatch (arc?_empty criteria .forward a b).symm.trans he
  loopless a b e he := nomatch (arc?_empty criteria .forward a b).symm.trans he

/-- What an inserted edge changes: only what is held between its own ends. -/
theorem arc?_insertEdge_cases {f : Edge} (h : (g.insertEdge f).arc? .forward a b = some e) :
    g.arc? .forward a b = some e ∨
      f.source = a ∧ f.target = b ∧ e = Edge.onto (g.arc? .forward a b) f := by
  rw [arc?_insertEdge] at h
  split at h
  · rename_i hj
    obtain ⟨hs, ht⟩ := Edge.joins_forward_iff.mp hj
    exact Or.inr ⟨hs, ht, (Option.some.inj h).symm⟩
  · exact Or.inl h

theorem Sound.insertEdge (hg : g.Sound) {f : Edge} (hf : f.source ≠ f.target) :
    (g.insertEdge f).Sound where
  mirrored a b := by rw [arc?_insertEdge, arc?_insertEdge, Edge.joins_backward, hg.mirrored]
  ends a b e he := by
    rcases arc?_insertEdge_cases he with h | ⟨hs, ht, rfl⟩
    · exact hg.ends a b e h
    · cases hold : g.arc? .forward a b with
      | none => exact ⟨hs, ht⟩
      | some x => exact hg.ends a b x hold
  nodes a b e he := by
    have hnodes (t : TypeName) :
        t ∈ (g.insertEdge f).nodes ↔ t = f.target ∨ t = f.source ∨ t ∈ g.nodes := by
      unfold FlowGraph.insertEdge
      rw [OrdSet.mem_insert, OrdSet.mem_insert]
    rw [hnodes, hnodes]
    rcases arc?_insertEdge_cases he with h | ⟨hs, ht, -⟩
    · obtain ⟨ha, hb⟩ := hg.nodes a b e h
      exact ⟨Or.inr (Or.inr ha), Or.inr (Or.inr hb)⟩
    · exact ⟨Or.inr (Or.inl hs.symm), Or.inl ht.symm⟩
  loopless a b e he := by
    rcases arc?_insertEdge_cases he with h | ⟨rfl, rfl, -⟩
    · exact hg.loopless a b e h
    · exact hf

theorem Sound.insertEdges :
    ∀ {l : List Edge} {g : FlowGraph}, g.Sound → (∀ e ∈ l, e.source ≠ e.target) →
      (g.insertEdges l).Sound
  | [], _, hg, _ => hg
  | e :: _, _, hg, hl =>
    (hg.insertEdge (hl e List.mem_cons_self)).insertEdges fun f hf =>
      hl f (List.mem_cons_of_mem e hf)

theorem Sound.addRoot (hg : g.Sound) (t : TypeName) : (g.addRoot t).Sound where
  mirrored := hg.mirrored
  ends := hg.ends
  nodes a b e he := by
    obtain ⟨ha, hb⟩ := hg.nodes a b e he
    exact ⟨OrdSet.mem_insert.mpr (Or.inr ha), OrdSet.mem_insert.mpr (Or.inr hb)⟩
  loopless := hg.loopless

end FlowGraph

/-- **Scanned graphs are sound.** -/
theorem Policy.flows_sound (p : Policy) (permissions : PermissionMap) (criteria : Criteria) :
    (p.flows permissions criteria).Sound := by
  refine (FlowGraph.sound_empty criteria).insertEdges fun e he => ?_
  obtain ⟨r, hr, her⟩ := mem_allRuleEdges.mp he
  exact (contributes_of_mem_ruleEdges hr her).2.1

end PolicyReach
