import PolicyReach.Proofs.Flow.Results

/-!
# The results at a root are those of the index

A graph holds what its index needs around all its roots. At one root nothing shows of what it has been
grown from besides: its results there are what the index itself would give, down to the choice between
equally light walks. This rests on no bound: weights may be zero, and sums of them may be cut off or
wrap around.

* `Grown.fan_eq`: where all edges at a type are selected, the graph has them all;
* `Search.Tidy`, `settleAll_ends`: a search settles what it reaches once, and then nothing waits;
* `settleAll_local`, `Grown.run_eq`: a search reads the edges of the types it reaches, and no others;
* **`Grown.hopResults_eq`**, **`Grown.reachResults_eq`**: the results at a root are those of the index.
-/

namespace PolicyReach

namespace FlowGraph

variable {g index : FlowGraph} {o : Orientation} {root t u : TypeName} {e : Edge} {limit : Nat}

/-! ## The edges at a type -/

/-- In the direct scope the edges at a root are selected in both orientations. -/
theorem mem_select_direct (hi : index.Sound) (hscope : index.criteria.scope = .direct)
    (he : index.arc? o root u = some e) : e ∈ index.select root := by
  obtain ⟨hedge, hnear, -⟩ := hi.arc_iff.mp he
  refine (mem_select_iff hi).mpr ⟨hedge, ?_⟩
  rw [hscope]
  cases o with
  | forward => exact Or.inl hnear
  | backward => exact Or.inr hnear

/-- **Where all edges at a type are selected, the graph has them all**, and no others. -/
theorem Grown.fan_eq (hi : index.Sound) (hg : Grown limit index g) (hroot : root ∈ g.roots)
    (hsel : ∀ u e, index.arc? o t u = some e → e ∈ index.select root) :
    g.fan o t = index.fan o t := by
  refine OrdMap.ext fun u => Option.ext fun e => ⟨fun he => hg.arc hi he, fun he => ?_⟩
  exact hg.arc_of_selected hi hroot he (hsel u e he)

/-- **One-hop results at a root are those of the index.** -/
theorem Grown.hopResults_eq (hi : index.Sound) (hg : Grown limit index g)
    (hscope : index.criteria.scope = .direct) (hroot : root ∈ g.roots) (p : Policy)
    (f : Option NameFilter) (direction : FlowDirection) :
    g.hopResults p f direction root = index.hopResults p f direction root := by
  have hfan (o : Orientation) : g.fan o root = index.fan o root :=
    hg.fan_eq hi hroot fun _ _ he => mem_select_direct hi hscope he
  unfold hopResults filteredFan
  rw [hfan .forward, hfan .backward]

theorem Reaches.mem_nodes (hg : g.Sound) (h : g.Reaches o root t) :
    t ∈ root :: g.nodes.toList := by
  cases h with
  | root => exact List.mem_cons_self
  | hop _ _ arc => exact List.mem_cons_of_mem _ (OrdSet.mem_toList.mpr (hg.arc_nodes arc).2)

end FlowGraph

namespace Search

variable {q : Search} {s : Reached} {a : TypeName} {c : UInt32}

/-! ## A search ends -/

/-- **The books of a search** that goes on where its graph does. What waits is not settled, and waits
under its own weight; all that has been met is reached by walks; and what stands before a type has an
edge to it. -/
structure Tidy (q : Search) (s : Reached) : Prop where
  onward : ∀ {t}, q.expands t = true → q.graph.goesOn q.source t = true
  frontier : ∀ {t d}, ⟨d, t⟩ ∈ s.frontier → s.dist.get? t = some d ∧ t ∉ s.settled
  waiting : ∀ {t d}, ⟨d, t⟩ ∈ s.frontier → q.graph.Reaches q.orientation q.source t
  settled : ∀ {t}, t ∈ s.settled → q.graph.Reaches q.orientation q.source t
  led : ∀ {t a}, s.prev.get? t = some a → ∃ e, q.graph.arc? q.orientation a t = some e

theorem tidy_start (honward : ∀ {t}, q.expands t = true → q.graph.goesOn q.source t = true) :
    q.Tidy (Reached.reach {} q.source 0) := by
  have h := explored_start q
  refine ⟨honward, fun hw => h.frontier.mp hw, fun {t d} hw => ?_, fun ht => absurd ht ?_, fun hp => ?_⟩
  · by_cases ht : t = q.source
    · exact ht ▸ .root
    · obtain ⟨a, c, e, -, ha, -⟩ := h.led (h.frontier.mp hw).1 ht
      exact absurd ha.1 (OrdSet.not_mem_empty a)
  · exact OrdSet.not_mem_empty _
  · exact nomatch (OrdMap.get?_empty _).symm.trans hp

theorem Tidy.settle (h : q.Tidy s) {t : TypeName} (ht : s.lightest? = some (t, c)) :
    q.Tidy (s.settle t c) ∧ q.graph.Reaches q.orientation q.source t ∧ t ∉ s.settled := by
  obtain ⟨hmem, -⟩ := lightest?_eq_some ht
  obtain ⟨hdist, hnew⟩ := h.frontier hmem
  have hwaits {x : TypeName} {d : UInt32} (hx : ⟨d, x⟩ ∈ (s.settle t c).frontier) :
      ⟨d, x⟩ ∈ s.frontier ∧ x ≠ t := by
    obtain ⟨hne, hold⟩ := OrdSet.mem_erase.mp hx
    refine ⟨hold, fun heq => hne ?_⟩
    subst heq
    rw [Option.some.inj ((h.frontier hold).1.symm.trans hdist)]
  refine ⟨⟨h.onward, fun hx => ?_, fun hx => h.waiting (hwaits hx).1, fun hx => ?_, h.led⟩,
    h.waiting hmem, hnew⟩
  · obtain ⟨hold, hne⟩ := hwaits hx
    obtain ⟨hd, hout⟩ := h.frontier hold
    exact ⟨hd, fun hin => (OrdSet.mem_insert.mp hin).elim hne hout⟩
  · rcases OrdSet.mem_insert.mp hx with rfl | hold
    · exact h.waiting hmem
    · exact h.settled hold

/-- A type that takes an offer waits under the weight offered, and no longer under another one. -/
theorem Tidy.reachVia (h : q.Tidy s) {b : TypeName} {e : Edge}
    (ha : q.graph.Reaches q.orientation q.source a) (hexp : q.expands a = true)
    (harc : q.graph.arc? q.orientation a b = some e) (hb : b ∉ s.settled) (cost : UInt32) :
    q.Tidy (s.reachVia b a cost) := by
  have hwaits {x : TypeName} {d : UInt32} (hx : ⟨d, x⟩ ∈ (s.reachVia b a cost).frontier) :
      x = b ∧ d = cost ∨ x ≠ b ∧ ⟨d, x⟩ ∈ s.frontier := by
    unfold Reached.reachVia Reached.reach at hx
    rcases OrdSet.mem_insert.mp hx with heq | hold
    · cases heq
      exact Or.inl ⟨rfl, rfl⟩
    · right
      cases hd : s.dist.get? b with
      | none =>
        simp only [hd] at hold
        refine ⟨fun heq => ?_, hold⟩
        subst heq
        cases hd.symm.trans (h.frontier hold).1
      | some old =>
        simp only [hd] at hold
        obtain ⟨hne, hin⟩ := OrdSet.mem_erase.mp hold
        refine ⟨fun heq => hne ?_, hin⟩
        subst heq
        rw [Option.some.inj ((h.frontier hin).1.symm.trans hd)]
  refine ⟨h.onward, fun hx => ?_, fun hx => ?_, h.settled, fun {t p} hp => ?_⟩
  · rcases hwaits hx with ⟨rfl, rfl⟩ | ⟨hne, hold⟩
    · exact ⟨Reached.dist_reachVia_self, hb⟩
    · exact ⟨(Reached.dist_reachVia_ne hne).trans (h.frontier hold).1, (h.frontier hold).2⟩
  · rcases hwaits hx with ⟨rfl, rfl⟩ | ⟨-, hold⟩
    · exact ha.hop (h.onward hexp) harc
    · exact h.waiting hold
  · by_cases ht : t = b
    · subst ht
      obtain rfl := Option.some.inj (Reached.prev_reachVia_self.symm.trans hp)
      exact ⟨e, harc⟩
    · exact h.led ((Reached.prev_reachVia_ne ht).symm.trans hp)

theorem Tidy.visit (h : q.Tidy s) {hop : TypeName × Edge}
    (ha : q.graph.Reaches q.orientation q.source a) (hexp : q.expands a = true)
    (harc : q.graph.arc? q.orientation a hop.1 = some hop.2) : q.Tidy (q.visit a c s hop) := by
  unfold Search.visit
  split
  · rename_i hmay
    obtain ⟨hnew, -⟩ := mayHop_iff.mp hmay
    unfold Reached.offer
    split
    · exact h.reachVia ha hexp harc hnew _
    · exact h
  · exact h

theorem Tidy.visitAll (ha : q.graph.Reaches q.orientation q.source a) (hexp : q.expands a = true) :
    ∀ {hops : List (TypeName × Edge)} {s : Reached},
      (∀ hop ∈ hops, q.graph.arc? q.orientation a hop.1 = some hop.2) → q.Tidy s →
      q.Tidy (hops.foldl (q.visit a c) s)
  | [], _, _, h => h
  | hop :: hops, s, harcs, h => by
    rw [List.foldl_cons]
    exact Tidy.visitAll ha hexp (fun x hx => harcs x (List.mem_cons_of_mem hop hx))
      (h.visit ha hexp (harcs hop List.mem_cons_self))

/-- One round of the loop settles one more type. -/
theorem Tidy.settleOne (h : q.Tidy s) {t : TypeName} (ht : s.lightest? = some (t, c)) :
    q.Tidy (q.settleOne s t c) ∧ (q.settleOne s t c).settled.size = s.settled.size + 1 := by
  obtain ⟨hsettle, hreaches, hnew⟩ := h.settle ht
  refine ⟨?_, settled_settleOne q s t c ▸ OrdSet.size_insert hnew⟩
  unfold Search.settleOne
  by_cases htarget : q.target = some t
  · rw [if_pos htarget]
    exact hsettle
  · rw [if_neg htarget]
    by_cases hexp : q.expands t = true
    · rw [if_pos hexp]
      exact Tidy.visitAll hreaches hexp (fun _ hhop => FlowGraph.mem_neighbors.mp hhop) hsettle
    · rw [if_neg hexp]
      exact hsettle

/-- Settled types and the one that waits are the source and nodes. -/
theorem Tidy.size_le (hg : q.graph.Sound) (h : q.Tidy s) {t : TypeName}
    (ht : s.lightest? = some (t, c)) : s.settled.size ≤ q.graph.nodeCount := by
  obtain ⟨-, hreaches, hnew⟩ := h.settle ht
  have hnodes : ∀ x ∈ s.settled.insert t, x ∈ q.source :: q.graph.nodes.toList := by
    intro x hx
    rcases OrdSet.mem_insert.mp hx with rfl | hx
    · exact hreaches.mem_nodes hg
    · exact (h.settled hx).mem_nodes hg
  exact size_le_nodeCount hnew hnodes

/-- **A search without a target ends with nothing waiting**, as every round settles another type. -/
theorem settleAll_ends (hg : q.graph.Sound) (htarget : q.target = none) :
    ∀ {fuel : Nat} {s : Reached}, q.Tidy s → q.graph.nodeCount + 1 ≤ s.settled.size + fuel →
      (q.settleAll fuel s).lightest? = none ∧ q.Tidy (q.settleAll fuel s)
  | fuel, s, h, hsize => by
    cases ht : s.lightest? with
    | none =>
      rw [settleAll_of_none q fuel ht]
      exact ⟨ht, h⟩
    | some w =>
      obtain ⟨t, c⟩ := w
      have hle := h.size_le hg ht
      cases fuel with
      | zero => omega
      | succ fuel =>
        obtain ⟨hone, hset⟩ := h.settleOne ht
        rw [settleAll_of_some ht (htarget ▸ (Option.some_ne_none t).symm)]
        exact settleAll_ends hg htarget hone (by omega)

/-- Once nothing waits, more rounds change nothing. -/
theorem settleAll_add (htarget : q.target = none) (more : Nat) :
    ∀ {fuel : Nat} {s : Reached}, (q.settleAll fuel s).lightest? = none →
      q.settleAll (fuel + more) s = q.settleAll fuel s
  | fuel, s, h => by
    cases ht : s.lightest? with
    | none => rw [settleAll_of_none q _ ht, settleAll_of_none q _ ht]
    | some w =>
      obtain ⟨t, c⟩ := w
      cases fuel with
      | zero => exact nomatch ht.symm.trans h
      | succ fuel =>
        have hne : q.target ≠ some t := htarget ▸ (Option.some_ne_none t).symm
        rw [settleAll_of_some ht hne] at h ⊢
        rw [Nat.succ_add, settleAll_of_some ht hne]
        exact settleAll_add htarget more h

end Search

namespace Reached

/-- Walking back adds hops from the types that stand before others. -/
theorem mem_hops_walkBack {s : Reached} {x : TypeName × TypeName} :
    ∀ {fuel : Nat} {t : TypeName} {l : List TypeName},
      x ∈ FlowGraph.hops (s.walkBack fuel t (t :: l)) →
        x ∈ FlowGraph.hops (t :: l) ∨ s.prev.get? x.2 = some x.1
  | 0, _, _, h => Or.inl h
  | fuel + 1, t, l, h => by
    rw [walkBack] at h
    cases hp : s.prev.get? t with
    | none =>
      rw [hp] at h
      exact Or.inl h
    | some p =>
      rw [hp] at h
      rcases mem_hops_walkBack h with hmem | hprev
      · rcases List.mem_cons.mp hmem with rfl | hrest
        · exact Or.inr hp
        · exact Or.inl hrest
      · exact Or.inr hprev

end Reached

/-- What a search reads off is a walk along edges. -/
theorem Search.Tidy.walks {q : Search} {s : Reached} (h : q.Tidy s) {t : TypeName}
    {l : List TypeName} (hl : s.walkTo? t = some l) : q.graph.Walks q.orientation l := by
  unfold Reached.walkTo? at hl
  split at hl
  · obtain rfl := Option.some.inj hl
    refine FlowGraph.walks_iff_hops.mpr fun x hx => h.led ?_
    exact (Reached.mem_hops_walkBack hx).resolve_left List.not_mem_nil
  · cases hl

/-! ## A search reads what is selected -/

namespace FlowGraph

variable {g index : FlowGraph} {o : Orientation} {root t : TypeName} {limit : Nat}

/-- **Two searches do the same** where the graphs agree on the edges of the types they go on from. -/
theorem settleAll_local (hcriteria : g.criteria = index.criteria)
    (hfan : ∀ t, index.Reaches o root t → index.goesOn root t = true → g.fan o t = index.fan o t) :
    ∀ {fuel : Nat} {s : Reached}, (index.searchFrom o root).Tidy s →
      (g.searchFrom o root).settleAll fuel s = (index.searchFrom o root).settleAll fuel s
  | 0, _, _ => rfl
  | fuel + 1, s, h => by
    cases ht : s.lightest? with
    | none => rw [Search.settleAll_of_none _ _ ht, Search.settleAll_of_none _ _ ht]
    | some w =>
      obtain ⟨t, c⟩ := w
      obtain ⟨-, hreaches, -⟩ := h.settle ht
      have hexp : (g.searchFrom o root).expands t = (index.searchFrom o root).expands t := by
        unfold Search.expands searchFrom
        rw [hcriteria]
      have hone : (g.searchFrom o root).settleOne s t c =
          (index.searchFrom o root).settleOne s t c := by
        unfold Search.settleOne
        rw [hexp]
        by_cases hgo : (index.searchFrom o root).expands t = true
        · have hneighbors : g.neighbors o t = index.neighbors o t :=
            congrArg OrdMap.entries (hfan t hreaches hgo)
          have hoffer : (g.searchFrom o root).offerAll (s.settle t c) t c =
              (index.searchFrom o root).offerAll (s.settle t c) t c := by
            show (g.neighbors o t).foldl _ _ = _
            rw [hneighbors]
            rfl
          rw [hoffer]
          rfl
        · rw [if_neg hgo, if_neg hgo]
          rfl
      rw [Search.settleAll_of_some ht (Option.some_ne_none t).symm,
        Search.settleAll_of_some ht (Option.some_ne_none t).symm, hone]
      exact settleAll_local hcriteria hfan (h.settleOne ht).1

namespace Grown

/-- **A search from a root finds what it finds in the index.** -/
theorem run_eq (hi : index.Sound) (hg : Grown limit index g) {direction : ReachDirection}
    (hscope : index.criteria.scope = .transitive direction) (hroot : root ∈ g.roots) :
    (g.searchFrom direction.orientation root).run =
      (index.searchFrom direction.orientation root).run := by
  generalize ho : direction.orientation = o
  have hfan (t : TypeName) (ht : index.Reaches o root t) (hgoes : index.goesOn root t = true) :
      g.fan o t = index.fan o t :=
    hg.fan_eq hi hroot fun u e he => by
      subst ho
      exact mem_select hi hscope ht hgoes he
  obtain ⟨hends, -⟩ := Search.settleAll_ends (q := g.searchFrom o root) hg.sound rfl
    (Search.tidy_start id) (Nat.le_add_left _ _)
  obtain ⟨hends', -⟩ := Search.settleAll_ends (q := index.searchFrom o root) hi rfl
    (Search.tidy_start id) (Nat.le_add_left _ _)
  -- the two loops have different fuel: both are given what they need together
  calc (g.searchFrom o root).run
      = (g.searchFrom o root).settleAll (g.nodeCount + 1) (Reached.reach {} root 0) := rfl
    _ = (g.searchFrom o root).settleAll (g.nodeCount + 1 + (index.nodeCount + 1))
          (Reached.reach {} root 0) := (Search.settleAll_add rfl _ hends).symm
    _ = (index.searchFrom o root).settleAll (index.nodeCount + 1 + (g.nodeCount + 1))
          (Reached.reach {} root 0) := by
        rw [Nat.add_comm]
        exact settleAll_local hg.criteria hfan (Search.tidy_start id)
    _ = (index.searchFrom o root).run := Search.settleAll_add rfl _ hends'

/-- The flow along a walk of the graph is the flow along it in the index. -/
theorem walkResult?_eq (hi : index.Sound) (hg : Grown limit index g) {l : List TypeName}
    (hw : g.Walks o l) (direction : FlowDirection) (start : TypeName) :
    g.walkResult? o direction start l = index.walkResult? o direction start l := by
  have hedges : g.walkEdges? o l = index.walkEdges? o l := by
    rw [walkEdges?_eq, walkEdges?_eq]
    refine mapM_congr fun x hx => ?_
    obtain ⟨e, he⟩ := walks_iff_hops.mp (hg.sound.walks_along.mpr hw) x hx
    exact he.trans (hg.arc hi he).symm
  unfold walkResult?
  rw [hedges]

/-- **Results over many hops at a root are those of the index.** -/
theorem reachResults_eq (hi : index.Sound) (hg : Grown limit index g) {direction : ReachDirection}
    (hscope : index.criteria.scope = .transitive direction) (hroot : root ∈ g.roots) (p : Policy)
    (f : Option NameFilter) :
    g.reachResults p f direction root = index.reachResults p f direction root := by
  have hrun := hg.run_eq hi hscope hroot
  obtain ⟨-, htidy⟩ := Search.settleAll_ends (q := g.searchFrom direction.orientation root)
    hg.sound rfl (Search.tidy_start id) (Nat.le_add_left _ _)
  show ((g.searchFrom direction.orientation root).run.dist.keyList.filter _).filterMap (fun t =>
      ((g.searchFrom direction.orientation root).run.walkTo? t).bind _) =
    ((index.searchFrom direction.orientation root).run.dist.keyList.filter _).filterMap (fun t =>
      ((index.searchFrom direction.orientation root).run.walkTo? t).bind _)
  rw [← hrun]
  refine List.filterMap_congr fun t _ => ?_
  cases hl : (g.searchFrom direction.orientation root).run.walkTo? t with
  | none => rfl
  | some l => exact hg.walkResult?_eq hi (htidy.walks hl) _ _

end Grown

end FlowGraph

end PolicyReach
