import PolicyReach.Flow.PathEnumeration
import PolicyReach.Proofs.Flow.Paths

/-!
# Paths are enumerated in order, each once, and none is missed

The paths taken so far form a tree of beginnings. Where a path that has not been taken leaves this tree,
a candidate is waiting that leaves it at the same place and is no heavier: that is the invariant of an
enumeration (`PathEnumeration.Tracks`), and it makes the lightest candidate the next path in order.

* **`Tracks.exists_candidate`**: for every path not taken, a candidate no heavier is waiting;
* **`Tracks.next`**: taking a path keeps the invariant, whatever graph serves that has the paths of the
  index (`PathEnumeration.Carries`);
* `tracks_prepare`: an enumeration begins with the invariant.
-/

namespace PolicyReach

open Std

/-! ## The queue -/

namespace Candidate

variable {c d : Candidate} {q : List Candidate}

/-- Lighter candidates stand first. -/
def Sorted (q : List Candidate) : Prop := q.Pairwise fun c d => c.weight.toNat ≤ d.weight.toNat

theorem weight_le_of_isLT (h : (c.order d).isLT = true) : c.weight.toNat ≤ d.weight.toNat := by
  rw [← UInt32.le_iff_toNat_le, ← LawfulOrderOrd.isLE_compare]
  unfold order at h
  cases hw : compare c.weight d.weight with
  | lt | eq => rfl
  | gt =>
    rw [hw] at h
    exact nomatch h

theorem weight_le_of_not_isLT (h : ¬ (c.order d).isLT = true) : d.weight.toNat ≤ c.weight.toNat := by
  rw [← UInt32.le_iff_toNat_le, ← LawfulOrderOrd.isGE_compare]
  unfold order at h
  cases hw : compare c.weight d.weight with
  | gt | eq => rfl
  | lt =>
    rw [hw] at h
    exact absurd rfl h

theorem perm_enqueue (c : Candidate) : ∀ q : List Candidate, (c.enqueue q).Perm (c :: q)
  | [] => .refl _
  | d :: q => by
    rw [enqueue]
    split
    · exact .refl _
    · exact ((perm_enqueue c q).cons d).trans (.swap c d q)

theorem sorted_enqueue (c : Candidate) : ∀ {q : List Candidate}, Sorted q → Sorted (c.enqueue q)
  | [], _ => List.pairwise_singleton _ c
  | d :: q, h => by
    obtain ⟨hd, hq⟩ := List.pairwise_cons.mp h
    rw [enqueue]
    split
    · have hle : c.weight.toNat ≤ d.weight.toNat := weight_le_of_isLT ‹_›
      refine List.pairwise_cons.mpr ⟨fun x hx => ?_, h⟩
      rcases List.mem_cons.mp hx with rfl | hx
      · exact hle
      · exact Nat.le_trans hle (hd x hx)
    · refine List.pairwise_cons.mpr ⟨fun x hx => ?_, sorted_enqueue c hq⟩
      rcases List.mem_cons.mp ((perm_enqueue c q).mem_iff.mp hx) with rfl | hx
      · exact weight_le_of_not_isLT ‹_›
      · exact hd x hx

/-- A queue with candidates put at their places. -/
def enqueueAll (cs q : List Candidate) : List Candidate := cs.foldl (fun q c => c.enqueue q) q

theorem perm_enqueueAll : ∀ cs q : List Candidate, (enqueueAll cs q).Perm (cs ++ q)
  | [], q => .refl q
  | c :: cs, q => by
    have ih := perm_enqueueAll cs (c.enqueue q)
    exact ih.trans (((perm_enqueue c q).append_left cs).trans List.perm_middle)

theorem sorted_enqueueAll : ∀ {cs q : List Candidate}, Sorted q → Sorted (enqueueAll cs q)
  | [], _, h => h
  | c :: cs, q, h => by
    show Sorted (enqueueAll cs (c.enqueue q))
    exact sorted_enqueueAll (sorted_enqueue c h)

/-- The candidates of a list, each once, in the order in which they come first. -/
def distinct (cs found : List Candidate) : List Candidate :=
  cs.foldl (fun found c => if found.contains c then found else found ++ [c]) found

theorem mem_distinct : ∀ {cs found : List Candidate}, c ∈ distinct cs found ↔ c ∈ found ∨ c ∈ cs
  | [], found => by
    rw [or_iff_left List.not_mem_nil]
    rfl
  | d :: cs, found => by
    show c ∈ distinct cs (if found.contains d then found else found ++ [d]) ↔ _
    rw [mem_distinct, List.mem_cons]
    split
    · have hd : d ∈ found := List.contains_iff_mem.mp ‹_›
      refine or_congr_right' fun hnot => ?_
      exact (or_iff_right fun (heq : c = d) => hnot (heq ▸ hd)).symm
    · rw [List.mem_append, List.mem_singleton, or_assoc]

theorem nodup_distinct : ∀ {cs found : List Candidate}, found.Nodup → (distinct cs found).Nodup
  | [], _, h => h
  | d :: cs, found, h => by
    show (distinct cs (if found.contains d then found else found ++ [d])).Nodup
    split
    · exact nodup_distinct h
    · have hd : d ∉ found := fun hmem => absurd (List.contains_iff_mem.mpr hmem) ‹_›
      exact nodup_distinct (h.append (List.nodup_singleton d) (List.disjoint_singleton.mpr hd))

end Candidate

namespace PathEnumeration

variable {e e' : PathEnumeration} {index g : FlowGraph} {c : Candidate}
  {path before rest m : List TypeName} {source y z : TypeName}

/-! ## What an enumeration is of -/

/-- The list is a path of the graph between the ends of the enumeration. -/
def IsPath (e : PathEnumeration) (g : FlowGraph) (walk : List TypeName) : Prop :=
  g.Path e.orientation e.start e.finish walk

/-- The paths that have been queued: those taken, and those that are waiting. -/
def known (e : PathEnumeration) : List (List TypeName) := e.returned ++ e.queue.map Candidate.walk

/-- The graph has the paths of the index, and they cost the same. -/
structure Carries (e : PathEnumeration) (index g : FlowGraph) : Prop where
  sound : g.Sound
  measured : g.Measured
  paths : ∀ {p}, e.IsPath g p ↔ e.IsPath index p
  costs : ∀ {p}, e.IsPath g p → g.cost e.orientation p = index.cost e.orientation p

/-- The candidate is for a path, and has the weight of it. -/
structure Weighed (e : PathEnumeration) (index : FlowGraph) (c : Candidate) : Prop where
  path : e.IsPath index c.walk
  weight : c.weight.toNat = index.cost e.orientation c.walk

/-- Candidates for the same path weigh the same. -/
theorem Weighed.eq {d : Candidate} (hc : e.Weighed index c) (hd : e.Weighed index d)
    (hwalk : c.walk = d.walk) : c = d := by
  have hweight : c.weight.toNat = d.weight.toNat := by rw [hc.weight, hd.weight, hwalk]
  cases c
  cases d
  exact congrArg₂ Candidate.mk (UInt32.toNat_inj.mp hweight) hwalk

/-- A graph that is grown from the start of an enumeration has its paths. -/
theorem carries_of_grown {limit : Nat} {direction : ReachDirection} (hi : index.Index)
    (hg : FlowGraph.Grown limit index g) (hlimit : limit ≤ FlowGraph.edgeBound)
    (hscope : index.criteria.scope = .transitive direction)
    (horient : e.orientation = direction.orientation) (hroot : e.start ∈ g.roots) :
    e.Carries index g where
  sound := hg.sound
  measured := hg.measured hi hlimit
  paths {p} := by
    unfold IsPath
    rw [horient]
    exact hg.path_iff hi.sound hscope hroot
  costs hp := hg.cost_eq hi.sound hp.walks

theorem Carries.exists_candidate? (hc : e.Carries index g) {w : List TypeName}
    (hw : e.IsPath index w) : ∃ c, e.candidate? g w = some c ∧ c.walk = w ∧ e.Weighed index c := by
  have hp := hc.paths.mpr hw
  obtain ⟨weight, hweight, hcost⟩ := hp.walks.walkWeight?_eq hc.sound hc.measured hp.nodup
  refine ⟨⟨weight, w⟩, ?_, rfl, hw, hcost.trans (hc.costs hp)⟩
  unfold candidate?
  rw [hweight]
  rfl

/-! ## Deviations -/

/-- The hop that a walk makes after some beginning, if it has this beginning and goes on from it. -/
theorem hopAfter?_eq_some_iff {w : List TypeName} {h : TypeName × TypeName} :
    hopAfter? (before ++ [source]) w = some h ↔
      ∃ y m, w = before ++ source :: y :: m ∧ h = (source, y) := by
  unfold hopAfter?
  rw [List.getLast?_concat]
  constructor
  · intro hop
    split at hop
    · rename_i htake
      obtain ⟨t, rfl⟩ : before ++ [source] <+: w := List.prefix_iff_eq_take.mpr htake.symm
      cases t with
      | nil =>
        rw [List.append_nil, List.getElem?_length] at hop
        exact nomatch hop
      | cons y m =>
        rw [List.getElem?_append_right (Nat.le_refl _), Nat.sub_self] at hop
        exact ⟨y, m, (List.append_cons ..).symm, (Option.some.inj hop).symm⟩
    · exact nomatch hop
  · rintro ⟨y, m, rfl, rfl⟩
    rw [List.append_cons before source (y :: m), if_pos List.take_left,
      List.getElem?_append_right (Nat.le_refl _), Nat.sub_self]
    rfl

/-- The hops that a deviation from a path keeps off. -/
def takenHops (e : PathEnumeration) (path before : List TypeName) (source : TypeName) :
    List (TypeName × TypeName) :=
  (e.returned ++ [path]).filterMap (hopAfter? (before ++ [source]))

theorem mem_takenHops {h : TypeName × TypeName} :
    h ∈ e.takenHops path before source ↔
      ∃ z, h = (source, z) ∧ ∃ w ∈ e.returned ++ [path], before ++ [source, z] <+: w := by
  unfold takenHops
  simp only [List.mem_filterMap, hopAfter?_eq_some_iff]
  constructor
  · rintro ⟨w, hw, z, m, rfl, rfl⟩
    refine ⟨z, rfl, _, hw, m, ?_⟩
    rw [List.append_assoc]
    rfl
  · rintro ⟨z, rfl, w, hw, m, rfl⟩
    refine ⟨_, hw, z, m, ?_, rfl⟩
    rw [List.append_assoc]
    rfl

theorem getElem?_split : (before ++ source :: rest)[before.length]? = some source := by
  rw [List.getElem?_append_right (Nat.le_refl _), Nat.sub_self]
  rfl

theorem take_split : (before ++ source :: rest).take (before.length + 1) = before ++ [source] := by
  rw [List.take_length_add_append]
  rfl

/-- The deviation from a path at a type on it: the lightest way to go on from there, unless the whole
has been queued. -/
theorem deviation?_eq (e : PathEnumeration) (g : FlowGraph) (before : List TypeName)
    (source : TypeName) (rest : List TypeName) :
    e.deviation? g (before ++ source :: rest) before.length =
      (e.spur? g source before (e.takenHops (before ++ source :: rest) before source)).bind
        fun spur => if e.seen.contains (before ++ spur) then none else e.candidate? g (before ++ spur)
    := by
  unfold deviation? takenHops
  rw [getElem?_split, take_split, List.take_left]
  rfl

/-- A deviation from a path is a candidate for another path, which has not been queued. -/
theorem Carries.weighed_of_deviation (hc : e.Carries index g)
    (hpath : e.IsPath index (before ++ source :: y :: rest))
    (h : e.deviation? g (before ++ source :: y :: rest) before.length = some c) :
    e.Weighed index c ∧ c.walk ∉ e.seen := by
  obtain ⟨hfound, -⟩ := (hc.paths.mpr hpath).stem.walkTo? hc.sound hc.measured
    (e.takenHops (before ++ source :: y :: rest) before source)
  rw [deviation?_eq] at h
  obtain ⟨l, hl, h⟩ := Option.bind_eq_some_iff.mp h
  split at h
  · exact nomatch h
  · rename_i hseen
    obtain ⟨m, rfl, hp, -, -⟩ := hfound hl
    obtain ⟨c', hc', hwalk, hweighed⟩ := hc.exists_candidate? (hc.paths.mp hp)
    obtain rfl := Option.some.inj (hc'.symm.trans h)
    exact ⟨hweighed, fun hmem => hseen (List.contains_iff_mem.mpr (hwalk ▸ hmem))⟩

/-- On a path, only the hop from the type where it deviates can be one to keep off. -/
theorem off_takenHops_iff (hn : (source :: z :: m).Nodup) :
    (∀ x ∈ FlowGraph.hops (source :: z :: m), x ∉ e.takenHops path before source) ↔
      ∀ w ∈ e.returned ++ [path], ¬ before ++ [source, z] <+: w := by
  constructor
  · intro hoff w hw hprefix
    exact hoff (source, z) List.mem_cons_self (mem_takenHops.mpr ⟨z, rfl, w, hw, hprefix⟩)
  · intro hnew x hx hmem
    obtain ⟨z', rfl, w, hw, hprefix⟩ := mem_takenHops.mp hmem
    rcases List.mem_cons.mp hx with heq | hx
    · obtain rfl : z' = z := congrArg Prod.snd heq
      exact hnew w hw hprefix
    · obtain ⟨hsource, -⟩ := FlowGraph.mem_hops (l := z :: m) hx
      exact (List.nodup_cons.mp hn).1 (List.dropLast_subset _ hsource)

/-- **Where a path leaves those taken, a deviation leaves them that is no heavier**: it has been queued
before, or it is found now. -/
theorem Carries.exists_deviation (hc : e.Carries index g)
    (hpath : e.IsPath index (before ++ source :: y :: rest))
    (hp : e.IsPath index (before ++ source :: z :: m))
    (hnew : ∀ w ∈ e.returned ++ [before ++ source :: y :: rest], ¬ before ++ [source, z] <+: w) :
    ∃ w, before ++ [source] <+: w ∧ w ∉ e.returned ++ [before ++ source :: y :: rest] ∧
      index.cost e.orientation w ≤ index.cost e.orientation (before ++ source :: z :: m) ∧
      (w ∈ e.seen ∨
        ∃ c, e.deviation? g (before ++ source :: y :: rest) before.length = some c ∧ c.walk = w) := by
  have hp' := hc.paths.mpr hp
  obtain ⟨hfound, hex⟩ := (hc.paths.mpr hpath).stem.walkTo? hc.sound hc.measured
    (e.takenHops (before ++ source :: y :: rest) before source)
  have hoff := (off_takenHops_iff (List.nodup_append.mp hp'.nodup).2.1).mpr hnew
  obtain ⟨l, hl⟩ := hex hp' hoff
  obtain ⟨m', rfl, hw, hoff', hmin⟩ := hfound hl
  have hle := hmin hp' hoff
  rw [hc.costs hw, hc.costs hp'] at hle
  refine ⟨before ++ source :: m', ⟨m', (List.append_cons ..).symm⟩, fun hmem => ?_, hle, ?_⟩
  · cases m' with
    | nil =>
      have heq := FlowGraph.Path.eq_of_prefix hw (hc.paths.mpr hpath)
        ⟨y :: rest, (List.append_cons ..).symm⟩
      exact nomatch List.cons.inj (List.append_cancel_left heq) |>.2
    | cons z' m' =>
      refine (off_takenHops_iff (List.nodup_append.mp hw.nodup).2.1).mp hoff' _ hmem ⟨m', ?_⟩
      rw [List.append_assoc]
      rfl
  · by_cases hseen : before ++ source :: m' ∈ e.seen
    · exact Or.inl hseen
    · obtain ⟨c, hcand, hwalk, -⟩ := hc.exists_candidate? (hc.paths.mp hw)
      refine Or.inr ⟨c, ?_, hwalk⟩
      rw [deviation?_eq]
      refine Option.bind_eq_some_iff.mpr ⟨_, hl, ?_⟩
      rw [if_neg fun hmem => hseen (List.contains_iff_mem.mp hmem)]
      exact hcand

/-- A path goes on from every place on it but the last. -/
theorem exists_split {i : Nat} (hi : i < path.length - 1) :
    ∃ before source y rest, path = before ++ source :: y :: rest ∧ before.length = i := by
  have hlen : (path.take i).length = i := by
    rw [List.length_take]
    omega
  obtain ⟨source, y, rest, hdrop⟩ : ∃ source y rest, path.drop i = source :: y :: rest := by
    have hdropped := List.length_drop (l := path) (i := i)
    match hsuffix : path.drop i with
    | [] | [_] =>
      rw [hsuffix] at hdropped
      simp only [List.length_nil, List.length_singleton] at hdropped
      omega
    | source :: y :: rest => exact ⟨source, y, rest, rfl⟩
  refine ⟨path.take i, source, y, rest, ?_, hlen⟩
  rw [← hdrop, List.take_append_drop]

/-- The deviations from a path are those at the types on it but the last. -/
theorem mem_deviations :
    c ∈ e.deviations g path ↔ ∃ before source y rest, path = before ++ source :: y :: rest ∧
      e.deviation? g path before.length = some c := by
  show c ∈ Candidate.distinct ((List.range (path.length - 1)).filterMap (e.deviation? g path)) [] ↔ _
  rw [Candidate.mem_distinct, or_iff_right List.not_mem_nil, List.mem_filterMap]
  constructor
  · rintro ⟨i, hi, hdev⟩
    obtain ⟨before, source, y, rest, hsplit, rfl⟩ := exists_split (List.mem_range.mp hi)
    exact ⟨before, source, y, rest, hsplit, hdev⟩
  · rintro ⟨before, source, y, rest, rfl, hdev⟩
    refine ⟨before.length, List.mem_range.mpr ?_, hdev⟩
    rw [List.length_append, List.length_cons, List.length_cons]
    omega

theorem nodup_deviations (e : PathEnumeration) (g : FlowGraph) (path : List TypeName) :
    (e.deviations g path).Nodup :=
  Candidate.nodup_distinct List.nodup_nil

/-! ## The invariant -/

/-- **What holds of an enumeration** between two takings. -/
structure Tracks (e : PathEnumeration) (index : FlowGraph) : Prop where
  paths : ∀ w ∈ e.known, e.IsPath index w
  weights : ∀ c ∈ e.queue, c.weight.toNat = index.cost e.orientation c.walk
  seen : ∀ w, w ∈ e.seen ↔ w ∈ e.known
  distinct : e.known.Nodup
  sorted : Candidate.Sorted e.queue
  ascending : e.returned.Pairwise fun v w =>
    index.cost e.orientation v ≤ index.cost e.orientation w
  /-- No path that has not been taken is lighter than one that has. -/
  ordered : ∀ w ∈ e.returned, ∀ p, e.IsPath index p → p ∉ e.returned →
    index.cost e.orientation w ≤ index.cost e.orientation p
  first : e.returned = [] → ∀ p, e.IsPath index p →
    ∃ c ∈ e.queue, index.cost e.orientation c.walk ≤ index.cost e.orientation p
  /-- Where a path leaves those taken, a candidate is waiting that leaves them there. -/
  branches : ∀ {before source z m}, e.IsPath index (before ++ source :: z :: m) →
    (∃ w ∈ e.returned, before ++ [source] <+: w) →
    (∀ w ∈ e.returned, ¬ before ++ [source, z] <+: w) →
    ∃ c ∈ e.queue, before ++ [source] <+: c.walk ∧
      index.cost e.orientation c.walk ≤ index.cost e.orientation (before ++ source :: z :: m)

/-- **For every path that has not been taken, a candidate is waiting that is no heavier.** The path is
followed up to where it leaves the paths taken. -/
theorem Tracks.exists_candidate (ht : e.Tracks index) {p : List TypeName} (hp : e.IsPath index p)
    (hnew : p ∉ e.returned) :
    ∃ c ∈ e.queue, index.cost e.orientation c.walk ≤ index.cost e.orientation p := by
  have follow : ∀ {rest before : List TypeName} {source : TypeName},
      p = before ++ source :: rest → (∃ w ∈ e.returned, before ++ [source] <+: w) →
        ∃ c ∈ e.queue, index.cost e.orientation c.walk ≤ index.cost e.orientation p := by
    intro rest
    induction rest with
    | nil =>
      rintro before source rfl ⟨w, hw, hprefix⟩
      have heq := FlowGraph.Path.eq_of_prefix hp (ht.paths w (List.mem_append_left _ hw)) hprefix
      exact absurd (heq ▸ hw) hnew
    | cons z rest ih =>
      intro before source hsplit hbegun
      by_cases hgone : ∃ w ∈ e.returned, before ++ [source, z] <+: w
      · refine ih (hsplit.trans (List.append_cons ..)) ?_
        rw [List.append_assoc]
        exact hgone
      · subst hsplit
        obtain ⟨c, hc, -, hle⟩ := ht.branches hp hbegun fun w hw h => hgone ⟨w, hw, h⟩
        exact ⟨c, hc, hle⟩
  cases hreturned : e.returned with
  | nil => exact ht.first hreturned p hp
  | cons w ws =>
    have hmem : w ∈ e.returned := hreturned ▸ List.mem_cons_self
    obtain ⟨l, hl⟩ := List.head?_eq_some_iff.mp hp.head
    obtain ⟨m, hm⟩ := List.head?_eq_some_iff.mp (ht.paths w (List.mem_append_left _ hmem)).head
    refine @follow l [] e.start hl ⟨w, hmem, m, ?_⟩
    rw [hm]
    rfl

/-- When nothing is waiting, every path has been taken. -/
theorem Tracks.mem_returned (ht : e.Tracks index) (hq : e.queue = []) {p : List TypeName}
    (hp : e.IsPath index p) : p ∈ e.returned := by
  by_contra hnew
  obtain ⟨c, hc, -⟩ := ht.exists_candidate hp hnew
  rw [hq] at hc
  exact nomatch hc

variable {best : Candidate} {queue found : List Candidate}

/-- The candidate in front is no heavier than any path that has not been taken. -/
theorem Tracks.best_le (ht : e.Tracks index) (hq : e.queue = best :: queue) {p : List TypeName}
    (hp : e.IsPath index p) (hnew : p ∉ e.returned) :
    index.cost e.orientation best.walk ≤ index.cost e.orientation p := by
  obtain ⟨c, hc, hle⟩ := ht.exists_candidate hp hnew
  have hbest : best ∈ e.queue := hq ▸ List.mem_cons_self
  have hfirst : best.weight.toNat ≤ c.weight.toNat := by
    have hsorted := ht.sorted
    rw [hq] at hsorted hc
    rcases List.mem_cons.mp hc with rfl | hc
    · exact Nat.le_refl _
    · exact (List.pairwise_cons.mp hsorted).1 c hc
  have hw := ht.weights best hbest
  have hwc := ht.weights c hc
  omega

/-! ## Taking a path -/

/-- The enumeration after its candidate in front has been taken, and others queued. -/
def take (e : PathEnumeration) (best : Candidate) (queue found : List Candidate) :
    PathEnumeration :=
  { e with
    returned := e.returned ++ [best.walk]
    seen := (found.map Candidate.walk).reverse ++ e.seen
    queue := Candidate.enqueueAll found queue }

theorem foldl_push : ∀ (cs : List Candidate) (e : PathEnumeration), cs.foldl push e =
    { e with
      seen := (cs.map Candidate.walk).reverse ++ e.seen
      queue := Candidate.enqueueAll cs e.queue }
  | [], _ => rfl
  | c :: cs, e => by
    rw [List.foldl_cons, foldl_push cs, List.map_cons, List.reverse_cons, List.append_assoc]
    rfl

/-- **Taking the next path** succeeds with the candidate in front, unless the queue would get too
long. -/
theorem next_eq_some_iff :
    e.next g = .ok (some (best, e')) ↔
      ∃ queue, e.queue = best :: queue ∧
        queue.length + (e.deviations g best.walk).length ≤ e.limit ∧
        e' = e.take best queue (e.deviations g best.walk) := by
  unfold next
  cases hq : e.queue with
  | nil => exact ⟨(nomatch ·), fun ⟨_, h, _⟩ => nomatch h⟩
  | cons first queue =>
    simp only
    split
    · refine ⟨(nomatch ·), ?_⟩
      rintro ⟨_, heq, hle, -⟩
      cases heq
      omega
    · rw [foldl_push]
      constructor
      · intro h
        cases h
        exact ⟨queue, rfl, Nat.not_lt.mp ‹_›, rfl⟩
      · rintro ⟨_, heq, -, rfl⟩
        cases heq
        rfl

theorem next_eq_none_iff : e.next g = .ok none ↔ e.queue = [] := by
  unfold next
  cases e.queue with
  | nil => exact ⟨fun _ => rfl, fun _ => rfl⟩
  | cons best queue =>
    simp only
    split
    · exact ⟨(nomatch ·), (nomatch ·)⟩
    · exact ⟨(nomatch ·), (nomatch ·)⟩

/-- Taking a path fails only if the queue would get too long. -/
theorem next_error {error : AnalysisError} (h : e.next g = .error error) :
    ∃ queued, e.limit < queued ∧
      error = .allocation (.candidates e.start e.finish queued e.limit) := by
  unfold next at h
  split at h
  · exact nomatch h
  · simp only at h
    split at h
    · exact ⟨_, ‹_›, (Except.error.inj h).symm⟩
    · exact nomatch h

theorem Carries.of_mem_deviations (hc : e.Carries index g) {best : List TypeName}
    (hbest : e.IsPath index best) (h : c ∈ e.deviations g best) :
    e.Weighed index c ∧ c.walk ∉ e.seen := by
  obtain ⟨before, source, y, rest, rfl, hdev⟩ := mem_deviations.mp h
  exact hc.weighed_of_deviation hbest hdev

/-- The paths queued are joined by those of the deviations. -/
theorem known_take (hq : e.queue = best :: queue) (found : List Candidate) :
    (e.take best queue found).known.Perm (e.known ++ found.map Candidate.walk) := by
  have hqueue := (Candidate.perm_enqueueAll found queue).map Candidate.walk
  have hswap : ((found ++ queue).map Candidate.walk).Perm
      (queue.map Candidate.walk ++ found.map Candidate.walk) := by
    rw [List.map_append]
    exact List.perm_append_comm
  have hknown : e.known ++ found.map Candidate.walk =
      (e.returned ++ [best.walk]) ++
        (queue.map Candidate.walk ++ found.map Candidate.walk) := by
    unfold known
    rw [hq, List.map_cons]
    simp only [List.append_assoc, List.cons_append, List.nil_append]
  rw [hknown]
  exact (hqueue.trans hswap).append_left _

/-- **Where a path leaves those taken, a candidate still waits**: the one that has waited there, or a
deviation from the path taken last. -/
theorem Tracks.branches_take (hc : e.Carries index g) (ht : e.Tracks index)
    (hq : e.queue = best :: queue)
    (hp : e.IsPath index (before ++ source :: z :: m))
    (hbegun : ∃ w ∈ e.returned ++ [best.walk], before ++ [source] <+: w)
    (hnew : ∀ w ∈ e.returned ++ [best.walk], ¬ before ++ [source, z] <+: w) :
    ∃ c ∈ Candidate.enqueueAll (e.deviations g best.walk) queue, before ++ [source] <+: c.walk ∧
      index.cost e.orientation c.walk ≤ index.cost e.orientation (before ++ source :: z :: m) := by
  have hqueued (c : Candidate) : c ∈ Candidate.enqueueAll (e.deviations g best.walk) queue ↔
      c ∈ e.deviations g best.walk ∨ c ∈ queue :=
    (Candidate.perm_enqueueAll _ _).mem_iff.trans List.mem_append
  have hbest : e.IsPath index best.walk := by
    refine ht.paths _ (List.mem_append_right _ ?_)
    rw [hq]
    exact List.mem_cons_self
  by_cases hprefix : before ++ [source] <+: best.walk
  · obtain ⟨t, hsplit⟩ := hprefix
    cases t with
    | nil =>
      -- the path taken last ends where the other one goes on
      have heq := FlowGraph.Path.eq_of_prefix hbest hp
        ⟨z :: m, by rw [← hsplit, List.append_nil, ← List.append_cons]⟩
      rw [← hsplit, List.append_nil] at heq
      exact nomatch (List.cons.inj (List.append_cancel_left heq)).2
    | cons y rest =>
      rw [← List.append_cons] at hsplit
      rw [← hsplit] at hbest hnew
      obtain ⟨w, hbegins, hfresh, hle, hseen⟩ := hc.exists_deviation hbest hp hnew
      rcases hseen with hseen | ⟨c, hdev, rfl⟩
      · -- it has been queued before, and not been taken
        have hknown := (ht.seen w).mp hseen
        rcases List.mem_append.mp hknown with hold | hwaits
        · exact absurd (List.mem_append_left _ hold) hfresh
        · obtain ⟨c, hmem, rfl⟩ := List.mem_map.mp hwaits
          rw [hq] at hmem
          rcases List.mem_cons.mp hmem with rfl | hmem
          · exact absurd (List.mem_append_right _ (List.mem_singleton.mpr hsplit.symm)) hfresh
          · exact ⟨c, (hqueued c).mpr (Or.inr hmem), hbegins, hle⟩
      · have hmem : c ∈ e.deviations g best.walk :=
          mem_deviations.mpr ⟨before, source, y, rest, hsplit.symm, hsplit ▸ hdev⟩
        exact ⟨c, (hqueued c).mpr (Or.inl hmem), hbegins, hle⟩
  · have hbegun' : ∃ w ∈ e.returned, before ++ [source] <+: w := by
      obtain ⟨w, hw, hbegins⟩ := hbegun
      rcases List.mem_append.mp hw with hw | hw
      · exact ⟨w, hw, hbegins⟩
      · exact absurd (List.mem_singleton.mp hw ▸ hbegins) hprefix
    obtain ⟨c, hmem, hbegins, hle⟩ :=
      ht.branches hp hbegun' fun w hw => hnew w (List.mem_append_left _ hw)
    rw [hq] at hmem
    rcases List.mem_cons.mp hmem with rfl | hmem
    · exact absurd hbegins hprefix
    · exact ⟨c, (hqueued c).mpr (Or.inr hmem), hbegins, hle⟩

/-- **Taking a path keeps the invariant**; the path is a new one. -/
theorem Tracks.next (hc : e.Carries index g) (ht : e.Tracks index)
    (h : e.next g = .ok (some (best, e'))) :
    e'.Tracks index ∧ e.IsPath index best.walk ∧ best.walk ∉ e.returned := by
  obtain ⟨queue, hq, -, rfl⟩ := next_eq_some_iff.mp h
  have hmem : best.walk ∈ e.queue.map Candidate.walk := by
    rw [hq]
    exact List.mem_cons_self
  have hbest := ht.paths _ (List.mem_append_right _ hmem)
  have hfresh : best.walk ∉ e.returned :=
    fun hold => (List.nodup_append.mp ht.distinct).2.2 _ hold _ hmem rfl
  have hfound (c : Candidate) (hdev : c ∈ e.deviations g best.walk) :=
    hc.of_mem_deviations hbest hdev
  have hknown := known_take hq (e.deviations g best.walk)
  refine ⟨⟨fun w hw => ?_, fun c hmem => ?_, fun w => ?_, ?_, ?_, ?_, fun w hw p hp hnew => ?_,
    fun hnil => ?_, ht.branches_take hc hq⟩, hbest, hfresh⟩
  · rcases List.mem_append.mp (hknown.mem_iff.mp hw) with hw | hw
    · exact ht.paths w hw
    · obtain ⟨c, hdev, rfl⟩ := List.mem_map.mp hw
      exact (hfound c hdev).1.path
  · rcases List.mem_append.mp ((Candidate.perm_enqueueAll _ _).mem_iff.mp hmem) with hdev | hold
    · exact (hfound c hdev).1.weight
    · exact ht.weights c (hq ▸ List.mem_cons_of_mem _ hold)
  · rw [hknown.mem_iff, List.mem_append, ← ht.seen w]
    show w ∈ ((e.deviations g best.walk).map Candidate.walk).reverse ++ e.seen ↔ _
    rw [List.mem_append, List.mem_reverse, or_comm]
  · rw [hknown.nodup_iff]
    refine List.nodup_append.mpr ⟨ht.distinct, ?_, fun v hv w hw heq => ?_⟩
    · exact List.Nodup.map_on (fun c hdev d hdev' heq => (hfound c hdev).1.eq (hfound d hdev').1 heq)
        (nodup_deviations e g best.walk)
    · subst heq
      obtain ⟨c, hdev, rfl⟩ := List.mem_map.mp hw
      exact (hfound c hdev).2 ((ht.seen _).mpr hv)
  · have hsorted := ht.sorted
    rw [hq] at hsorted
    exact Candidate.sorted_enqueueAll (List.pairwise_cons.mp hsorted).2
  · refine List.pairwise_append.mpr ⟨ht.ascending, List.pairwise_singleton _ _, fun v hv w hw => ?_⟩
    rw [List.mem_singleton.mp hw]
    exact ht.ordered v hv _ hbest hfresh
  · have hnew' : p ∉ e.returned := fun hold => hnew (List.mem_append_left _ hold)
    rcases List.mem_append.mp hw with hw | hw
    · exact ht.ordered w hw p hp hnew'
    · rw [List.mem_singleton.mp hw]
      exact ht.best_le hq hp hnew'
  · exact absurd hnil (List.concat_ne_nil _ _)

/-! ## Beginning -/

/-- An enumeration of which nothing has been queued. -/
def blank (start finish : TypeName) (orientation : Orientation) (limit : Nat) : PathEnumeration :=
  { start, finish, orientation, limit }

variable {a b : TypeName} {o : Orientation} {limit : Nat}

/-- An enumeration begins with the candidate for the walk that a search finds, if it finds one. -/
theorem prepare_spur_cases (hc : (blank a b o limit).Carries index g) :
    (blank a b o limit).spur? g a [] [] = none ∧ prepare g a b o limit = blank a b o limit ∨
      ∃ c, (blank a b o limit).spur? g a [] [] = some c.walk ∧
        prepare g a b o limit = (blank a b o limit).push c ∧
        (blank a b o limit).Weighed index c := by
  have hprepare : prepare g a b o limit =
      (((blank a b o limit).spur? g a [] []).bind ((blank a b o limit).candidate? g)).elim
        (blank a b o limit) (blank a b o limit).push := by
    unfold prepare blank
    dsimp only
    split
    · rename_i c hfirst
      rw [hfirst, Option.elim_some]
    · rename_i hnone
      rw [hnone, Option.elim_none]
  cases hspur : (blank a b o limit).spur? g a [] [] with
  | none =>
    refine Or.inl ⟨rfl, ?_⟩
    rw [hprepare, hspur]
    rfl
  | some l =>
    obtain ⟨hfound, -⟩ :=
      (FlowGraph.stem_nil g o a).walkTo? (b := b) hc.sound hc.measured []
    obtain ⟨m, rfl, hw, -⟩ := hfound hspur
    obtain ⟨c, hcand, hwalk, hweighed⟩ := hc.exists_candidate? (hc.paths.mp hw)
    rw [List.nil_append] at hcand hwalk
    refine Or.inr ⟨c, congrArg some hwalk.symm, ?_, hweighed⟩
    rw [hprepare, hspur, Option.bind_some, hcand, Option.elim_some]

/-- An enumeration begins with the candidate for a lightest path, if there is a path. -/
theorem prepare_cases (hc : (blank a b o limit).Carries index g) :
    (prepare g a b o limit = blank a b o limit ∧ ∀ p, ¬ index.Path o a b p) ∨
      ∃ c, prepare g a b o limit = (blank a b o limit).push c ∧
        (blank a b o limit).Weighed index c ∧
        ∀ p, index.Path o a b p → index.cost o c.walk ≤ index.cost o p := by
  obtain ⟨hfound, hex⟩ :=
    (FlowGraph.stem_nil g o a).walkTo? (b := b) hc.sound hc.measured []
  have hoff (l : List TypeName) : ∀ x ∈ FlowGraph.hops l, x ∉ ([] : List (TypeName × TypeName)) :=
    fun _ _ => List.not_mem_nil
  rcases prepare_spur_cases hc with ⟨hspur, heq⟩ | ⟨c, hspur, heq, hweighed⟩
  · refine Or.inl ⟨heq, fun p hp => ?_⟩
    obtain ⟨m, rfl⟩ := List.head?_eq_some_iff.mp hp.head
    have hp' : g.Path o a b (a :: m) := hc.paths.mpr hp
    obtain ⟨l, hl⟩ := hex hp' (hoff _)
    cases hspur.symm.trans hl
  · refine Or.inr ⟨c, heq, hweighed, fun p hp => ?_⟩
    obtain ⟨m, hwalk, hw, -, hmin⟩ := hfound hspur
    obtain ⟨m', rfl⟩ := List.head?_eq_some_iff.mp hp.head
    have hp' : g.Path o a b (a :: m') := hc.paths.mpr hp
    have hle : g.cost o (a :: m) ≤ g.cost o (a :: m') := hmin hp' (hoff _)
    have hcost : g.cost o (a :: m) = index.cost o (a :: m) := hc.costs hw
    have hcost' : g.cost o (a :: m') = index.cost o (a :: m') := hc.costs hp'
    rw [hcost, hcost'] at hle
    rw [hwalk]
    exact hle

/-- **An enumeration begins with the invariant**, and with nothing taken. -/
theorem tracks_prepare (hc : (blank a b o limit).Carries index g) :
    (prepare g a b o limit).Tracks index ∧ (prepare g a b o limit).start = a ∧
      (prepare g a b o limit).finish = b ∧ (prepare g a b o limit).orientation = o ∧
      (prepare g a b o limit).limit = limit ∧ (prepare g a b o limit).returned = [] := by
  rcases prepare_cases hc with ⟨heq, hnone⟩ | ⟨c, heq, hweighed, hmin⟩
  · rw [heq]
    refine ⟨?_, rfl, rfl, rfl, rfl, rfl⟩
    exact
      { paths := fun _ => (nomatch ·)
        weights := fun _ => (nomatch ·)
        seen := fun _ => Iff.rfl
        distinct := List.nodup_nil
        sorted := List.Pairwise.nil
        ascending := List.Pairwise.nil
        ordered := fun _ => (nomatch ·)
        first := fun _ p hp => absurd hp (hnone p)
        branches := fun _ hbegun _ => nomatch hbegun }
  · rw [heq]
    refine ⟨?_, rfl, rfl, rfl, rfl, rfl⟩
    exact
      { paths := fun w hw => List.mem_singleton.mp hw ▸ hweighed.path
        weights := fun d hd => List.mem_singleton.mp hd ▸ hweighed.weight
        seen := fun _ => Iff.rfl
        distinct := List.nodup_singleton _
        sorted := List.pairwise_singleton _ _
        ascending := List.Pairwise.nil
        ordered := fun _ => (nomatch ·)
        first := fun _ p hp => ⟨c, List.mem_singleton.mpr rfl, hmin p hp⟩
        branches := fun _ hbegun _ => nomatch hbegun }

end PathEnumeration

end PolicyReach
