import Mathlib.Algebra.Ring.Nat
import Mathlib.Data.List.Chain
import PolicyReach.Flow.Results
import PolicyReach.Proofs.Fallible
import PolicyReach.Proofs.Flow.Shape
import PolicyReach.Proofs.PermissionMap.Weights

/-!
# Walks and what they cost

A walk is a list of types, each hop along an edge in the walk's orientation; its cost is the sum of
the weights of its edges, as a number without bound (`FlowGraph.cost`).

* `Walks.length_le`: a walk that repeats no type has no more hops than the graph has edges;
* **`measured_of_inRange`**: with weights in range and few enough edges, the cost of such a walk fits
  a word, so that adding up the weights as words is exact (`Walks.walkWeight?_eq`);
* **`Walks.walkResult?_along`**: the flow along a walk lists the walk's edges in the order in which
  information moves, and its length is the walk's cost.
-/

namespace PolicyReach

open Std in
/-- A set has no more members than a list of them is long. -/
theorem OrdSet.size_le_length {α : Type} [Ord α] [TransOrd α] [LawfulEqOrd α] {s : OrdSet α}
    {l : List α} (h : ∀ a ∈ s, a ∈ l) : s.size ≤ l.length := by
  have hsub : s.toList ⊆ l := fun a ha => h a (OrdSet.mem_toList.mp ha)
  rw [← OrdSet.length_toList]
  exact (List.subperm_of_subset s.nodup_toList hsub).length_le

theorem Reached.getLast?_walkBack (s : Reached) (fuel : Nat) (t : TypeName) {walk : List TypeName}
    (hne : walk ≠ []) : (s.walkBack fuel t walk).getLast? = walk.getLast? := by
  induction fuel generalizing t walk with
  | zero => rfl
  | succ fuel ih =>
    unfold walkBack
    split
    · rfl
    · rw [ih _ (List.cons_ne_nil _ _), List.getLast?_cons, List.getLast?_eq_some_getLast hne,
        Option.getD_some]

/-- The walk to a type ends there. -/
theorem Reached.getLast?_walkTo? {s : Reached} {t : TypeName} {walk : List TypeName}
    (h : s.walkTo? t = some walk) : walk.getLast? = some t := by
  obtain ⟨-, h⟩ := Option.ite_none_right_eq_some.mp h
  obtain rfl := Option.some.inj h
  exact getLast?_walkBack s _ t (List.cons_ne_nil t [])

namespace FlowGraph

variable {g : FlowGraph} {o : Orientation}

/-- Every hop of the list is along an edge. -/
def Walks (g : FlowGraph) (o : Orientation) (walk : List TypeName) : Prop :=
  walk.IsChain fun a b => ∃ e, g.arc? o a b = some e

/-- The weight of the edge that a hop is along. -/
def hopCost (g : FlowGraph) (o : Orientation) (a b : TypeName) : Nat :=
  (g.arc? o a b).elim 0 fun e => e.weight.toNat

/-- The sum of the weights of the edges that a walk is along. -/
def cost (g : FlowGraph) (o : Orientation) : List TypeName → Nat
  | a :: b :: l => g.hopCost o a b + cost g o (b :: l)
  | _ => 0

/-- A walk from `a` to `b` that passes through passable types only. -/
structure Route (g : FlowGraph) (o : Orientation) (a b : TypeName) (walk : List TypeName) :
    Prop where
  head : walk.head? = some a
  last : walk.getLast? = some b
  walks : g.Walks o walk
  inner : ∀ t ∈ walk.tail.dropLast, g.criteria.isPassable t = true

/-- Weights are positive, and walks that repeat no type are light enough for a word. -/
structure Measured (g : FlowGraph) : Prop where
  positive : ∀ {o a b e}, g.arc? o a b = some e → 0 < e.weight.toNat
  fits : ∀ {o walk}, g.Walks o walk → walk.Nodup → g.cost o walk < UInt32.size

theorem hopCost_of_arc {a b : TypeName} {e : Edge} (he : g.arc? o a b = some e) :
    g.hopCost o a b = e.weight.toNat := by
  unfold hopCost
  rw [he]
  rfl

/-! ## Splitting walks -/

theorem cost_split (g : FlowGraph) (o : Orientation) (a : TypeName) (m : List TypeName) :
    ∀ l : List TypeName, g.cost o (l ++ a :: m) = g.cost o (l ++ [a]) + g.cost o (a :: m)
  | [] => (Nat.zero_add _).symm
  | [x] => by
    show g.hopCost o x a + g.cost o (a :: m) = g.hopCost o x a + 0 + g.cost o (a :: m)
    rfl
  | x :: y :: l => by
    have ih := cost_split g o a m (y :: l)
    show g.hopCost o x y + g.cost o (y :: l ++ a :: m) =
      g.hopCost o x y + g.cost o (y :: l ++ [a]) + g.cost o (a :: m)
    rw [ih, Nat.add_assoc]

theorem walks_split {a : TypeName} {l m : List TypeName} :
    g.Walks o (l ++ a :: m) ↔ g.Walks o (l ++ [a]) ∧ g.Walks o (a :: m) :=
  List.isChain_split

theorem walks_snoc {a b : TypeName} {l : List TypeName} :
    g.Walks o (l ++ [a, b]) ↔ g.Walks o (l ++ [a]) ∧ ∃ e, g.arc? o a b = some e := by
  rw [walks_split]
  exact and_congr_right fun _ => List.isChain_pair

theorem cost_snoc (a b : TypeName) (l : List TypeName) :
    g.cost o (l ++ [a, b]) = g.cost o (l ++ [a]) + g.hopCost o a b :=
  cost_split g o a [b] l

/-! ## The hops of a walk -/

theorem hops_split (a : TypeName) (m : List TypeName) :
    ∀ l : List TypeName, hops (l ++ a :: m) = hops (l ++ [a]) ++ hops (a :: m)
  | [] => rfl
  | [_] => rfl
  | x :: y :: l => congrArg ((x, y) :: ·) (hops_split a m (y :: l))

theorem mem_hops {a b : TypeName} :
    ∀ {l : List TypeName}, (a, b) ∈ hops l → a ∈ l.dropLast ∧ b ∈ l.tail
  | x :: y :: l, h => by
    rcases List.mem_cons.mp h with heq | hrest
    · cases heq
      exact ⟨List.mem_cons_self, List.mem_cons_self⟩
    · obtain ⟨ha, hb⟩ := mem_hops (l := y :: l) hrest
      exact ⟨List.mem_cons_of_mem x ha, List.mem_cons_of_mem y hb⟩

/-- Every type on a walk but the last makes a hop. -/
theorem exists_mem_hops {a : TypeName} :
    ∀ {l : List TypeName}, a ∈ l.dropLast → ∃ b, (a, b) ∈ hops l
  | x :: y :: l, h => by
    rcases List.mem_cons.mp h with rfl | hrest
    · exact ⟨y, List.mem_cons_self⟩
    · obtain ⟨b, hb⟩ := exists_mem_hops (l := y :: l) hrest
      exact ⟨b, List.mem_cons_of_mem _ hb⟩

/-- Every type on a walk but the first is hopped to. -/
theorem exists_mem_hops_to {b : TypeName} :
    ∀ {l : List TypeName}, b ∈ l.tail → ∃ a, (a, b) ∈ hops l
  | x :: y :: l, h => by
    rcases List.mem_cons.mp h with rfl | hrest
    · exact ⟨x, List.mem_cons_self⟩
    · obtain ⟨a, ha⟩ := exists_mem_hops_to (l := y :: l) hrest
      exact ⟨a, List.mem_cons_of_mem _ ha⟩

/-- The types on a walk that make a hop are the first one and those between the ends. -/
theorem mem_dropLast_cases {a x : TypeName} {l : List TypeName} (hhead : l.head? = some a)
    (hx : x ∈ l.dropLast) : x = a ∨ x ∈ l.tail.dropLast := by
  obtain ⟨rest, rfl⟩ := List.head?_eq_some_iff.mp hhead
  cases rest with
  | nil => exact nomatch hx
  | cons y rest => exact List.mem_cons.mp hx

theorem mem_dropLast_of_inner {x : TypeName} {l : List TypeName} (hx : x ∈ l.tail.dropLast) :
    x ∈ l.dropLast := by
  rw [← List.tail_dropLast] at hx
  exact List.mem_of_mem_tail hx

theorem nodup_hops : ∀ {l : List TypeName}, l.Nodup → (hops l).Nodup
  | [], _ => List.nodup_nil
  | [_], _ => List.nodup_nil
  | a :: b :: l, h => by
    obtain ⟨ha, hl⟩ := List.nodup_cons.mp h
    exact List.nodup_cons.mpr
      ⟨fun hmem => ha (List.dropLast_subset _ (mem_hops hmem).1), nodup_hops hl⟩

theorem length_hops (l : List TypeName) : (hops l).length = l.length - 1 := by
  unfold hops
  rw [List.length_zip, List.length_tail]
  omega

theorem walks_iff_hops :
    ∀ {l : List TypeName}, g.Walks o l ↔ ∀ h ∈ hops l, ∃ e, g.arc? o h.1 h.2 = some e
  | [] => ⟨fun _ _ => (nomatch ·), fun _ => List.isChain_nil⟩
  | [_] => ⟨fun _ _ => (nomatch ·), fun _ => List.isChain_singleton _⟩
  | a :: b :: l => by
    have ih : g.Walks o (b :: l) ↔ _ := walks_iff_hops
    unfold Walks at ih ⊢
    rw [List.isChain_cons_cons, ih]
    show _ ↔ ∀ h ∈ (a, b) :: hops (b :: l), _
    rw [List.forall_mem_cons]

/-- A walk that repeats no type takes every edge once at most. -/
theorem Walks.length_le (hg : g.Sound) {l : List TypeName} (hw : g.Walks o l) (hn : l.Nodup) :
    l.length ≤ g.edgeCount + 1 := by
  have hsub : hops l ⊆ g.edges.map fun e => (e.near o, e.far o) := by
    intro h hh
    obtain ⟨e, he⟩ := walks_iff_hops.mp hw h hh
    obtain ⟨hnear, hfar⟩ := hg.near_far he
    exact List.mem_map.mpr ⟨e, hg.arc_mem_edges he, Prod.ext hnear hfar⟩
  have hle := (List.subperm_of_subset (nodup_hops hn) hsub).length_le
  rw [length_hops, List.length_map] at hle
  unfold edgeCount
  omega

theorem Walks.cost_le {w : Nat} (hw : ∀ {a b e}, g.arc? o a b = some e → e.weight.toNat ≤ w) :
    ∀ {l : List TypeName}, g.Walks o l → g.cost o l ≤ w * (l.length - 1)
  | [], _ => Nat.zero_le _
  | [_], _ => Nat.zero_le _
  | a :: b :: l, h => by
    obtain ⟨⟨e, he⟩, hrest⟩ := List.isChain_cons_cons.mp h
    have ih : g.cost o (b :: l) ≤ w * ((b :: l).length - 1) := Walks.cost_le hw hrest
    have hhop := hw he
    show g.hopCost o a b + g.cost o (b :: l) ≤ w * ((b :: l).length + 1 - 1)
    rw [hopCost_of_arc he]
    rw [List.length_cons] at ih ⊢
    rw [Nat.add_sub_cancel] at ih ⊢
    rw [Nat.mul_succ]
    omega

/-- The most edges a graph may have for the sums of weights on its walks to fit a word. -/
def edgeBound : Nat := 429496729

/-- **With weights in range and few enough edges, sums of weights are exact.** -/
theorem measured_of_inRange (hg : g.Sound)
    (hw : ∀ {o a b e}, g.arc? o a b = some e → InRange e.weight) (hn : g.edgeCount ≤ edgeBound) :
    g.Measured where
  positive he := (hw he).1
  fits {o walk} hwalk hnodup := by
    have hlen := hwalk.length_le hg hnodup
    have hcost := hwalk.cost_le (w := maxWeight.toNat) fun he => (hw he).2
    have hmax : maxWeight.toNat = 10 := rfl
    have hsize : UInt32.size = 4294967296 := rfl
    unfold edgeBound at hn
    rw [hmax] at hcost
    omega

/-! ## Sums of weights -/

theorem toNat_add_eq {a b : UInt32} (h : a.toNat + b.toNat < UInt32.size) :
    (a + b).toNat = a.toNat + b.toNat := by
  rw [UInt32.toNat_add]
  exact Nat.mod_eq_of_lt h

theorem toNat_foldl_add :
    ∀ {ws : List UInt32} {w : UInt32}, w.toNat + (ws.map UInt32.toNat).sum < UInt32.size →
      (ws.foldl (· + ·) w).toNat = w.toNat + (ws.map UInt32.toNat).sum
  | [], _, _ => rfl
  | x :: ws, w, h => by
    rw [List.map_cons, List.sum_cons, ← Nat.add_assoc] at h ⊢
    have hadd : (w + x).toNat = w.toNat + x.toNat :=
      toNat_add_eq (Nat.lt_of_le_of_lt (Nat.le_add_right _ _) h)
    rw [List.foldl_cons, toNat_foldl_add (by rwa [hadd]), hadd]

theorem sum_eq_cost :
    ∀ {l : List TypeName} {ws : List UInt32},
      List.Forall₂ (fun h w => (g.arc? o h.1 h.2).map Edge.weight = some w) (hops l) ws →
        (ws.map UInt32.toNat).sum = g.cost o l
  | [], _, .nil => rfl
  | [_], _, .nil => rfl
  | a :: b :: l, _, @List.Forall₂.cons _ _ _ _ _ _ ws hw hws => by
    obtain ⟨e, he, rfl⟩ := Option.map_eq_some_iff.mp hw
    have ih : (ws.map UInt32.toNat).sum = g.cost o (b :: l) := sum_eq_cost hws
    rw [List.map_cons, List.sum_cons, ih, ← hopCost_of_arc he]
    rfl

/-- The weights on a walk add up to its cost. -/
theorem Walks.exists_weights (hg : g.Sound) {l : List TypeName} (hw : g.Walks o l) :
    ∃ ws, ((hops l).mapM fun h => (g.orientedEdge? o h.1 h.2).map Edge.weight) = some ws ∧
      (ws.map UInt32.toNat).sum = g.cost o l := by
  have hedges (h : TypeName × TypeName) (hh : h ∈ hops l) :
      ∃ w, (g.orientedEdge? o h.1 h.2).map Edge.weight = some w := by
    obtain ⟨e, he⟩ := walks_iff_hops.mp hw h hh
    rw [← hg.arc_eq_edge?, he]
    exact ⟨e.weight, rfl⟩
  obtain ⟨ws, hws, hall⟩ := exists_mapM hedges
  simp only [← hg.arc_eq_edge?] at hall
  exact ⟨ws, hws, sum_eq_cost hall⟩

/-- **Adding up the weights of a walk as words gives its cost.** -/
theorem Walks.walkWeight?_eq (hg : g.Sound) (hm : g.Measured) {l : List TypeName} (hw : g.Walks o l)
    (hn : l.Nodup) : ∃ w, g.walkWeight? o l = some w ∧ w.toNat = g.cost o l := by
  obtain ⟨ws, hws, hsum⟩ := hw.exists_weights hg
  have hfits := hm.fits hw hn
  refine ⟨ws.foldl (· + ·) 0, ?_, ?_⟩
  · unfold walkWeight?
    rw [hws]
    rfl
  · have hzero : (0 : UInt32).toNat = 0 := rfl
    rw [toNat_foldl_add (by omega), hsum, hzero, Nat.zero_add]

/-! ## The flow along a walk -/

end FlowGraph

/-- A walk's types in the order in which information moves. -/
def Orientation.along (o : Orientation) (l : List TypeName) : List TypeName :=
  match o with
  | .forward => l
  | .backward => l.reverse

theorem Orientation.along_injective (o : Orientation) : Function.Injective o.along := by
  cases o with
  | forward => exact fun _ _ h => h
  | backward => exact List.reverse_injective

/-- `r` is the flow along a walk: its steps are the walk's edges in the order in which information
moves, and its length is their sum. -/
structure FlowResult.Along (r : FlowResult) (g : FlowGraph) (o : Orientation)
    (walk : List TypeName) : Prop where
  start : walk.head? = some r.start
  finish : walk.getLast? = some r.finish
  types : r.types = o.along walk
  chained : r.steps.IsChain fun s t => s.target = t.source
  edges : ∀ s ∈ r.steps, ∃ e, g.edge? s.source s.target = some e ∧ s = .ofEdge e
  sum : r.length.toNat = (r.steps.map fun s => s.weight.toNat).sum
  length : r.length.toNat = g.cost o walk

namespace FlowGraph

variable {g : FlowGraph} {o : Orientation}

theorem Sound.hopCost_backward (hg : g.Sound) (a b : TypeName) :
    g.hopCost .backward a b = g.hopCost .forward b a := by
  unfold hopCost
  rw [hg.mirrored]

/-- A walk is a walk in the order in which information moves. -/
theorem Sound.walks_along (hg : g.Sound) {l : List TypeName} :
    g.Walks .forward (o.along l) ↔ g.Walks o l := by
  cases o with
  | forward => rfl
  | backward =>
    unfold Walks Orientation.along
    simp only [List.isChain_reverse, hg.mirrored]

theorem Sound.cost_along (hg : g.Sound) :
    ∀ l : List TypeName, g.cost .forward (o.along l) = g.cost o l := by
  cases o with
  | forward => exact fun _ => rfl
  | backward =>
    intro l
    induction l with
    | nil => rfl
    | cons a l ih =>
      cases l with
      | nil => rfl
      | cons b l =>
        have hrev : (a :: b :: l).reverse = l.reverse ++ [b, a] := by simp
        have ih' : g.cost .forward (l.reverse ++ [b]) = g.cost .backward (b :: l) := by
          rw [← ih, Orientation.along, List.reverse_cons]
        show g.cost .forward (a :: b :: l).reverse = g.hopCost .backward a b + g.cost .backward (b :: l)
        rw [hrev, cost_snoc, ih', hg.hopCost_backward, Nat.add_comm]

/-- The edges between neighbours on a list of types lead along it. -/
structure LeadAlong (g : FlowGraph) (es : List Edge) (a : TypeName) (l : List TypeName) : Prop where
  targets : es.map Edge.target = l
  chained : es.IsChain fun e f => e.target = f.source
  head : ∀ e ∈ es.head?, e.source = a
  edges : ∀ e ∈ es, g.edge? e.source e.target = some e

theorem Sound.leadAlong (hg : g.Sound) :
    ∀ {a : TypeName} {l : List TypeName} {es : List Edge},
      List.Forall₂ (fun h e => g.edge? h.1 h.2 = some e) (hops (a :: l)) es → g.LeadAlong es a l
  | _, [], _, .nil => ⟨rfl, List.isChain_nil, fun _ => (nomatch ·), fun _ => (nomatch ·)⟩
  | a, b :: l, _, @List.Forall₂.cons _ _ _ _ e _ es he hes => by
    obtain ⟨hs, ht⟩ := hg.ends a b e he
    have ih := hg.leadAlong hes
    refine ⟨?_, ?_, fun f hf => ?_, fun f hf => ?_⟩
    · rw [List.map_cons, ht, ih.targets]
    · refine List.isChain_cons.mpr ⟨fun f hf => ?_, ih.chained⟩
      rw [ht, ih.head f hf]
    · obtain rfl := Option.some.inj hf
      exact hs
    · rcases List.mem_cons.mp hf with rfl | hf
      · rw [hs, ht]
        exact he
      · exact ih.edges f hf

theorem LeadAlong.types {direction : FlowDirection} {es : List Edge} {a x y : TypeName}
    {l : List TypeName} (h : g.LeadAlong es a l) (hl : l ≠ []) :
    (FlowResult.ofPath direction x y (es.map FlowStep.ofEdge)).types = a :: l := by
  have htargets : (es.map FlowStep.ofEdge).map FlowStep.target = l := by
    rw [List.map_map]
    exact h.targets
  have hhead : ((es.map FlowStep.ofEdge).head?.map FlowStep.source).toList = [a] := by
    cases es with
    | nil => exact absurd h.targets.symm hl
    | cons e es => exact congrArg (fun t => [t]) (h.head e rfl)
  show ((es.map FlowStep.ofEdge).head?.map FlowStep.source).toList ++
    (es.map FlowStep.ofEdge).map FlowStep.target = a :: l
  rw [hhead, htargets, List.singleton_append]

theorem walkEdges?_eq (g : FlowGraph) (o : Orientation) (l : List TypeName) :
    g.walkEdges? o l = (hops (o.along l)).mapM fun h => g.edge? h.1 h.2 := by
  cases o <;> rfl

/-- The edges along a walk are edges of the graph. -/
theorem mem_edges_of_walkEdges? {l : List TypeName} {es : List Edge} {e : Edge}
    (h : g.walkEdges? o l = some es) (he : e ∈ es) : e ∈ g.edges := by
  rw [walkEdges?_eq] at h
  obtain ⟨hop, -, hedge⟩ := exists_of_mem_mapM h he
  exact mem_edges.mpr ⟨hop.1, hop.2, hedge⟩

/-- The flow along a walk leads to its last type. -/
theorem walkResult?_eq_some {direction : FlowDirection} {start : TypeName} {l : List TypeName}
    {r : FlowResult} (h : g.walkResult? o direction start l = some r) :
    ∃ finish es, l.getLast? = some finish ∧ g.walkEdges? o l = some es ∧
      r = .ofPath direction start finish (es.map FlowStep.ofEdge) := by
  obtain ⟨finish, hfinish, h⟩ := Option.bind_eq_some_iff.mp h
  obtain ⟨es, hes, h⟩ := Option.bind_eq_some_iff.mp h
  exact ⟨finish, es, hfinish, hes, (Option.some.inj h).symm⟩

theorem exists_along_eq_cons {l : List TypeName} (hl : 2 ≤ l.length) (o : Orientation) :
    ∃ x m, o.along l = x :: m ∧ m ≠ [] := by
  have hlen : (o.along l).length = l.length := by
    cases o with
    | forward => rfl
    | backward => exact List.length_reverse
  rw [← hlen] at hl
  cases hflow : o.along l with
  | nil =>
    rw [hflow] at hl
    exact absurd hl (Nat.not_succ_le_zero 1)
  | cons x m =>
    refine ⟨x, m, rfl, fun hm => ?_⟩
    rw [hflow, hm] at hl
    exact absurd hl (Nat.lt_irrefl 1)

/-- **The flow along a walk that repeats no type.** -/
theorem Walks.walkResult?_along (hg : g.Sound) (hm : g.Measured) {a b : TypeName}
    {l : List TypeName} (hhead : l.head? = some a) (hlast : l.getLast? = some b) (hw : g.Walks o l)
    (hn : l.Nodup) (hlen : 2 ≤ l.length) (direction : FlowDirection) :
    ∃ r, g.walkResult? o direction a l = some r ∧ r.Along g o l ∧ r.direction = direction ∧
      r.start = a ∧ r.finish = b := by
  obtain ⟨es, hes, hall⟩ := exists_mapM (f := fun h : TypeName × TypeName => g.edge? h.1 h.2)
    (walks_iff_hops.mp (hg.walks_along.mpr hw))
  obtain ⟨x, m, hflow, hne⟩ := exists_along_eq_cons hlen o
  have hlead : g.LeadAlong es x m := hg.leadAlong (by rw [← hflow]; exact hall)
  have hsum : (es.map fun e => e.weight.toNat).sum = g.cost o l := by
    rw [← hg.cost_along, ← sum_eq_cost (List.forall₂_map_right_iff.mpr (hall.imp fun h e he => ?_)),
      List.map_map]
    · rfl
    · show (g.edge? h.1 h.2).map Edge.weight = _
      rw [he]
      rfl
  have hweights : ((es.map FlowStep.ofEdge).map FlowStep.weight).map UInt32.toNat =
      es.map fun e => e.weight.toNat := by
    rw [List.map_map, List.map_map]
    rfl
  have hlength : (FlowResult.ofPath direction a b (es.map FlowStep.ofEdge)).length.toNat =
      g.cost o l := by
    have hfits := hm.fits hw hn
    have hzero : (0 : UInt32).toNat = 0 := rfl
    show (((es.map FlowStep.ofEdge).map FlowStep.weight).foldl (· + ·) 0).toNat = _
    rw [toNat_foldl_add] <;> rw [hweights, hsum, hzero, Nat.zero_add]
    exact hfits
  refine ⟨.ofPath direction a b (es.map FlowStep.ofEdge), ?_, ⟨hhead, hlast, ?_, ?_, ?_, ?_, hlength⟩,
    rfl, rfl, rfl⟩
  · unfold walkResult?
    rw [hlast, walkEdges?_eq, hes]
    rfl
  · rw [hflow]
    exact hlead.types hne
  · exact List.isChain_map FlowStep.ofEdge |>.mpr hlead.chained
  · intro s hs
    obtain ⟨e, he, rfl⟩ := List.mem_map.mp hs
    exact ⟨e, hlead.edges e he, rfl⟩
  · rw [hlength, ← hsum, ← hweights, List.map_map]
    rfl

end FlowGraph

end PolicyReach
