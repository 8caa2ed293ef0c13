import PolicyReach.Flow.Results
import PolicyReach.Proofs.Flow.Shape

/-!
# One-hop results in the four modes

One-hop results are read off two fans of the start type, the edges into it and those out of it, and put
together type by type: apart in three of the modes, so that there is a result for every edge, and in one
result for each type in the fourth.

* `FlowResult.Reports`: a result that reports an edge, and all of it;
* `mem_hopResults`, `ordered_hopResults`: apart, there is one result for every edge that is asked for and
  passes the filter, in order;
* `mem_hopResults_either`, `finish_hopResults_either`: together, there is one result for every type;
* **`Sound.hopModes`**: how the results in the four modes are related;
* **`Sound.hop_mirror`**: flows into a type from another are flows out of that into the first.
-/

namespace PolicyReach

open Std

namespace FlowResult

/-- The result reports an edge between `start` and `finish`: it has the weight and the rules of the edge,
and the edge is its one step. -/
structure Reports (r : FlowResult) (direction : FlowDirection) (start finish : TypeName) (e : Edge) :
    Prop where
  direction : r.direction = direction
  start : r.start = start
  finish : r.finish = finish
  length : r.length = e.weight
  rules : r.rules = e.rules.toList
  steps : r.steps = [.ofEdge e]

/-- The result reports both flows that `i` and `o` report, the one into its start type first. -/
structure Merges (r i o : FlowResult) : Prop where
  direction : r.direction = .both
  start : r.start = i.start ∧ r.start = o.start
  finish : r.finish = i.finish ∧ r.finish = o.finish
  length : r.length = min i.length o.length
  rules : r.rules = (OrdSet.ofList (i.rules ++ o.rules)).toList
  steps : r.steps = i.steps ++ o.steps

/-- One result comes before another: by the type found, and what comes from there before what goes there. -/
def Precedes (r s : FlowResult) : Prop :=
  compare r.finish s.finish = .lt ∨
    r.finish = s.finish ∧ r.direction = .inward ∧ s.direction = .outward

theorem Precedes.ne {r s : FlowResult} (h : r.Precedes s) : r ≠ s := by
  rintro rfl
  rcases h with hlt | ⟨-, hin, hout⟩
  · have hself : compare r.finish r.finish = .eq := ReflCmp.compare_self
    exact nomatch hself.symm.trans hlt
  · exact nomatch hin.symm.trans hout

end FlowResult

namespace FlowGraph

variable {g : FlowGraph} {p : Policy} {f : Option NameFilter} {start finish t : TypeName} {e : Edge}
  {direction : FlowDirection} {inward outward : Option Edge} {r : FlowResult}

/-! ## The results for one type -/

theorem length_hopResult : (hopResult start direction finish e).length = e.weight :=
  UInt32.zero_add e.weight

theorem rules_hopResult : (hopResult start direction finish e).rules = e.rules.toList := by
  unfold FlowResult.rules
  rw [OrdSet.toList_inj]
  refine OrdSet.ext fun id => ?_
  rw [OrdSet.mem_ofList]
  simp [hopResult, FlowResult.ofPath, FlowStep.ofEdge]

theorem reports_iff :
    r.Reports direction start finish e ↔ r = hopResult start direction finish e := by
  constructor
  · rintro ⟨hdirection, hstart, hfinish, hlength, -, hsteps⟩
    have hweight : (hopResult start direction finish e).length = e.weight := length_hopResult
    rw [← hweight] at hlength
    cases r
    simp only at hdirection hstart hfinish hlength hsteps
    subst hdirection hstart hfinish hsteps
    exact congrArg (FlowResult.mk _ _ _ · _) hlength
  · rintro rfl
    exact ⟨rfl, rfl, rfl, length_hopResult, rules_hopResult, rfl⟩

theorem mem_apart :
    r ∈ apart start finish inward outward ↔
      (∃ e, inward = some e ∧ r = hopResult start .inward finish e) ∨
        ∃ e, outward = some e ∧ r = hopResult start .outward finish e := by
  simp only [apart, List.mem_append, Option.mem_toList, Option.map_eq_some_iff, eq_comm (a := r)]

theorem finish_of_mem_apart (hr : r ∈ apart start finish inward outward) : r.finish = finish := by
  rcases mem_apart.mp hr with ⟨e, -, rfl⟩ | ⟨e, -, rfl⟩ <;> rfl

theorem ordered_apart : (apart start finish inward outward).Pairwise FlowResult.Precedes := by
  refine List.pairwise_append.mpr ⟨?_, ?_, fun i hi o ho => ?_⟩
  · cases inward <;> simp
  · cases outward <;> simp
  · obtain ⟨e, -, rfl⟩ := Option.map_eq_some_iff.mp (Option.mem_toList.mp hi)
    obtain ⟨e, -, rfl⟩ := Option.map_eq_some_iff.mp (Option.mem_toList.mp ho)
    exact Or.inr ⟨rfl, rfl, rfl⟩

theorem finish_of_mem_together (hr : r ∈ together start finish inward outward) : r.finish = finish := by
  unfold together at hr
  split at hr
  · obtain rfl := List.mem_singleton.mp hr
    rfl
  · exact finish_of_mem_apart hr

/-! ## The results for all types -/

/-- The edges at `start` in some orientation that lead to types that pass, if they are wanted. -/
def wantedFan (g : FlowGraph) (p : Policy) (f : Option NameFilter) (wanted : Bool) (o : Orientation)
    (start : TypeName) : Fan :=
  if wanted then g.filteredFan p f o start else ∅

theorem get?_wantedFan {wanted : Bool} {o : Orientation} :
    (g.wantedFan p f wanted o start).get? t = some e ↔
      wanted = true ∧ g.arc? o start t = some e ∧ NameFilter.passes f p t = true := by
  unfold wantedFan
  cases wanted with
  | true =>
    rw [if_pos rfl, filteredFan, OrdMap.get?_filter, Option.filter_eq_some_iff]
    exact (and_iff_right rfl).symm
  | false =>
    have hempty : (∅ : Fan).get? t = none := OrdMap.get?_empty t
    simp [hempty]

/-- The types that there are results for. -/
def hopEnds (g : FlowGraph) (p : Policy) (f : Option NameFilter) (direction : FlowDirection)
    (start : TypeName) : OrdSet TypeName :=
  (g.wantedFan p f direction.wantsInward .backward start).keys.union
    (g.wantedFan p f direction.wantsOutward .forward start).keys

theorem hopResults_eq (g : FlowGraph) (p : Policy) (f : Option NameFilter)
    (direction : FlowDirection) (start : TypeName) :
    g.hopResults p f direction start = (g.hopEnds p f direction start).toList.flatMap fun t =>
      (if direction = .either then together start else apart start) t
        ((g.wantedFan p f direction.wantsInward .backward start).get? t)
        ((g.wantedFan p f direction.wantsOutward .forward start).get? t) :=
  rfl

theorem mem_hopEnds :
    t ∈ g.hopEnds p f direction start ↔
      (∃ e, (g.wantedFan p f direction.wantsInward .backward start).get? t = some e) ∨
        ∃ e, (g.wantedFan p f direction.wantsOutward .forward start).get? t = some e := by
  rw [hopEnds, OrdSet.mem_union, OrdMap.mem_keys, OrdMap.mem_keys]

/-- **Apart, the results report the edges** that are asked for and lead to types that pass. -/
theorem mem_hopResults (hne : direction ≠ .either) :
    r ∈ g.hopResults p f direction start ↔
      (direction.wantsInward = true ∧ ∃ t e, g.arc? .backward start t = some e ∧
          NameFilter.passes f p t = true ∧ r.Reports .inward start t e) ∨
        direction.wantsOutward = true ∧ ∃ t e, g.arc? .forward start t = some e ∧
          NameFilter.passes f p t = true ∧ r.Reports .outward start t e := by
  rw [hopResults_eq, if_neg hne]
  simp only [List.mem_flatMap, OrdSet.mem_toList, mem_apart, reports_iff]
  constructor
  · rintro ⟨t, -, ⟨e, he, rfl⟩ | ⟨e, he, rfl⟩⟩
    · obtain ⟨hwanted, harc, hpass⟩ := get?_wantedFan.mp he
      exact Or.inl ⟨hwanted, t, e, harc, hpass, rfl⟩
    · obtain ⟨hwanted, harc, hpass⟩ := get?_wantedFan.mp he
      exact Or.inr ⟨hwanted, t, e, harc, hpass, rfl⟩
  · rintro (⟨hwanted, t, e, harc, hpass, rfl⟩ | ⟨hwanted, t, e, harc, hpass, rfl⟩)
    · have he := get?_wantedFan.mpr ⟨hwanted, harc, hpass⟩
      exact ⟨t, mem_hopEnds.mpr (Or.inl ⟨e, he⟩), Or.inl ⟨e, he, rfl⟩⟩
    · have he := get?_wantedFan.mpr ⟨hwanted, harc, hpass⟩
      exact ⟨t, mem_hopEnds.mpr (Or.inr ⟨e, he⟩), Or.inr ⟨e, he, rfl⟩⟩

theorem ordered_hopResults (hne : direction ≠ .either) :
    (g.hopResults p f direction start).Pairwise FlowResult.Precedes := by
  rw [hopResults_eq, if_neg hne, List.pairwise_flatMap]
  refine ⟨fun t _ => ordered_apart, (OrdSet.ascending_toList _).imp fun hlt r hr s hs => ?_⟩
  left
  rw [finish_of_mem_apart hr, finish_of_mem_apart hs]
  exact hlt

theorem nodup_hopResults (hne : direction ≠ .either) : (g.hopResults p f direction start).Nodup :=
  (ordered_hopResults hne).imp FlowResult.Precedes.ne

/-- There is a result for every type that there is an edge for, and no other. -/
theorem exists_hopResults (hne : direction ≠ .either) :
    (∃ r ∈ g.hopResults p f direction start, r.finish = t) ↔ t ∈ g.hopEnds p f direction start := by
  rw [hopResults_eq, if_neg hne]
  simp only [List.mem_flatMap, OrdSet.mem_toList]
  constructor
  · rintro ⟨r, ⟨x, hx, hr⟩, rfl⟩
    rwa [finish_of_mem_apart hr]
  · intro ht
    rcases mem_hopEnds.mp ht with ⟨e, he⟩ | ⟨e, he⟩
    · exact ⟨_, ⟨t, ht, mem_apart.mpr (Or.inl ⟨e, he, rfl⟩)⟩, rfl⟩
    · exact ⟨_, ⟨t, ht, mem_apart.mpr (Or.inr ⟨e, he, rfl⟩)⟩, rfl⟩

/-- **Together, there is one result for every type**, in order. -/
theorem finish_hopResults_either :
    (g.hopResults p f .either start).map FlowResult.finish = (g.hopEnds p f .both start).toList := by
  have hone {t : TypeName} {i o : Option Edge} (hsome : (∃ e, i = some e) ∨ ∃ e, o = some e) :
      (together start t i o).map FlowResult.finish = [t] := by
    cases i <;> cases o <;> simp at hsome <;> rfl
  rw [hopResults_eq, if_pos rfl, List.map_flatMap,
    ← List.flatMap_singleton' (g.hopEnds p f .both start).toList]
  refine List.flatMap_congr fun t ht => hone ?_
  exact mem_hopEnds.mp (OrdSet.mem_toList.mp ht)

/-- A result for a type with edges in both directions merges those of the two edges. -/
theorem merges_together (start finish : TypeName) (i o : Edge) :
    FlowResult.Merges
      { direction := .both, start, finish, length := min i.weight o.weight
        steps := [.ofEdge i, .ofEdge o] }
      (hopResult start .inward finish i) (hopResult start .outward finish o) where
  direction := rfl
  start := ⟨rfl, rfl⟩
  finish := ⟨rfl, rfl⟩
  length := by rw [length_hopResult, length_hopResult]
  rules := by
    rw [rules_hopResult, rules_hopResult]
    simp [FlowResult.rules, FlowStep.ofEdge]
  steps := rfl

/-! ## The four modes -/

/-- What is found in one direction alone is found among both. -/
theorem mem_both_iff :
    r ∈ g.hopResults p f .both start ↔
      r ∈ g.hopResults p f .inward start ∨ r ∈ g.hopResults p f .outward start := by
  rw [mem_hopResults (by decide), mem_hopResults (by decide), mem_hopResults (by decide)]
  simp [FlowDirection.wantsInward, FlowDirection.wantsOutward]

theorem mem_inward (hg : g.Sound) :
    r ∈ g.hopResults p f .inward start ↔ ∃ t e, g.edge? t start = some e ∧
      NameFilter.passes f p t = true ∧ r.Reports .inward start t e := by
  rw [mem_hopResults (by decide)]
  simp [FlowDirection.wantsInward, FlowDirection.wantsOutward, hg.mirrored, edge?_eq_arc?]

theorem mem_outward :
    r ∈ g.hopResults p f .outward start ↔ ∃ t e, g.edge? start t = some e ∧
      NameFilter.passes f p t = true ∧ r.Reports .outward start t e := by
  rw [mem_hopResults (by decide)]
  simp [FlowDirection.wantsInward, FlowDirection.wantsOutward, edge?_eq_arc?]

theorem union_hopResults (hg : g.Sound) :
    (g.hopResults p f .both start).Perm
      (g.hopResults p f .inward start ++ g.hopResults p f .outward start) := by
  refine (List.perm_ext_iff_of_nodup (nodup_hopResults (by decide)) ?_).mpr fun r => ?_
  · refine List.nodup_append.mpr ⟨nodup_hopResults (by decide), nodup_hopResults (by decide),
      fun i hi o ho heq => ?_⟩
    obtain ⟨_, _, -, -, hin⟩ := (mem_inward hg).mp hi
    obtain ⟨_, _, -, -, hout⟩ := mem_outward.mp ho
    obtain rfl := heq
    exact nomatch hin.direction.symm.trans hout.direction
  · rw [List.mem_append, mem_both_iff]

/-- A result among both is one of those for the type that it is for. -/
theorem mem_apart_of_mem_both (hr : r ∈ g.hopResults p f .both start) :
    r ∈ apart start r.finish ((g.wantedFan p f true .backward start).get? r.finish)
      ((g.wantedFan p f true .forward start).get? r.finish) := by
  rw [hopResults_eq, if_neg (by decide)] at hr
  obtain ⟨t, -, ht⟩ := List.mem_flatMap.mp hr
  rw [finish_of_mem_apart ht]
  exact ht

/-- Together, a result for both directions merges two; any other is the only one for its type. -/
theorem merged_hopResults (hr : r ∈ g.hopResults p f .either start) :
    (∃ i ∈ g.hopResults p f .inward start, ∃ o ∈ g.hopResults p f .outward start, r.Merges i o) ∨
      r ∈ g.hopResults p f .both start ∧
        ∀ s ∈ g.hopResults p f .both start, s.finish = r.finish → s = r := by
  rw [hopResults_eq, if_pos rfl] at hr
  obtain ⟨t, -, hr⟩ := List.mem_flatMap.mp hr
  change r ∈ together start t ((g.wantedFan p f true .backward start).get? t)
    ((g.wantedFan p f true .forward start).get? t) at hr
  have hboth {s : FlowResult} (hs : s ∈ g.hopResults p f .both start) (hfinish : s.finish = r.finish) :
      s ∈ apart start t ((g.wantedFan p f true .backward start).get? t)
        ((g.wantedFan p f true .forward start).get? t) := by
    have hs := mem_apart_of_mem_both hs
    rwa [hfinish, finish_of_mem_together hr] at hs
  have hin {e : Edge} (he : (g.wantedFan p f true .backward start).get? t = some e) :
      hopResult start .inward t e ∈ g.hopResults p f .inward start := by
    obtain ⟨-, harc, hpass⟩ := get?_wantedFan.mp he
    exact (mem_hopResults (by decide)).mpr (Or.inl ⟨rfl, t, e, harc, hpass, reports_iff.mpr rfl⟩)
  have hout {e : Edge} (he : (g.wantedFan p f true .forward start).get? t = some e) :
      hopResult start .outward t e ∈ g.hopResults p f .outward start := by
    obtain ⟨-, harc, hpass⟩ := get?_wantedFan.mp he
    exact (mem_hopResults (by decide)).mpr (Or.inr ⟨rfl, t, e, harc, hpass, reports_iff.mpr rfl⟩)
  cases hi : (g.wantedFan p f true .backward start).get? t with
  | none =>
    cases ho : (g.wantedFan p f true .forward start).get? t with
    | none =>
      rw [hi, ho] at hr
      exact nomatch hr
    | some o =>
      rw [hi, ho] at hr hboth
      obtain rfl := List.mem_singleton.mp hr
      exact Or.inr ⟨mem_both_iff.mpr (Or.inr (hout ho)),
        fun s hs hfinish => List.mem_singleton.mp (hboth hs hfinish)⟩
  | some i =>
    cases ho : (g.wantedFan p f true .forward start).get? t with
    | none =>
      rw [hi, ho] at hr hboth
      obtain rfl := List.mem_singleton.mp hr
      exact Or.inr ⟨mem_both_iff.mpr (Or.inl (hin hi)),
        fun s hs hfinish => List.mem_singleton.mp (hboth hs hfinish)⟩
    | some o =>
      rw [hi, ho] at hr
      obtain rfl := List.mem_singleton.mp hr
      exact Or.inl ⟨_, hin hi, _, hout ho, merges_together start t i o⟩

/-- How the results in the four modes are related, and to the edges at `start`: `results` gives those of
each mode. -/
structure HopModes (g : FlowGraph) (passes : TypeName → Prop) (start : TypeName)
    (results : FlowDirection → List FlowResult) : Prop where
  inward : ∀ r, r ∈ results .inward ↔
    ∃ t e, g.edge? t start = some e ∧ passes t ∧ r.Reports .inward start t e
  outward : ∀ r, r ∈ results .outward ↔
    ∃ t e, g.edge? start t = some e ∧ passes t ∧ r.Reports .outward start t e
  union : (results .both).Perm (results .inward ++ results .outward)
  nodup : (results .both).Nodup
  ordered : (results .both).Pairwise FlowResult.Precedes
  ascending : ((results .either).map FlowResult.finish).Pairwise fun a b => compare a b = .lt
  ends : ∀ t, (∃ r ∈ results .either, r.finish = t) ↔ ∃ r ∈ results .both, r.finish = t
  /-- A result for both directions merges two; any other is the only one for its type. -/
  merged : ∀ r ∈ results .either,
    (∃ i ∈ results .inward, ∃ o ∈ results .outward, r.Merges i o) ∨
      r ∈ results .both ∧ ∀ s ∈ results .both, s.finish = r.finish → s = r

/-- **The results in the four modes agree.** -/
theorem Sound.hopModes (hg : g.Sound) (p : Policy) (f : Option NameFilter) (start : TypeName) :
    g.HopModes (fun t => NameFilter.passes f p t = true) start
      fun direction => g.hopResults p f direction start where
  inward _ := mem_inward hg
  outward _ := mem_outward
  union := union_hopResults hg
  nodup := nodup_hopResults (by decide)
  ordered := ordered_hopResults (by decide)
  ascending := finish_hopResults_either ▸ OrdSet.ascending_toList _
  ends t := by
    have hboth : (∃ r ∈ g.hopResults p f .both start, r.finish = t) ↔ _ :=
      exists_hopResults (by decide)
    rw [hboth, ← OrdSet.mem_toList, ← finish_hopResults_either, List.mem_map]
  merged _ hr := merged_hopResults hr

/-- **A flow into one type from another is a flow out of that into the first**: without a filter both are
reported, with the same weight and the same rules. -/
theorem Sound.hop_mirror (hg : g.Sound) (p : Policy) (a b : TypeName) (length : UInt32)
    (rules : List RuleId) :
    (∃ r ∈ g.hopResults p none .inward a, r.finish = b ∧ r.length = length ∧ r.rules = rules) ↔
      ∃ r ∈ g.hopResults p none .outward b, r.finish = a ∧ r.length = length ∧ r.rules = rules := by
  constructor
  · rintro ⟨r, hr, rfl, rfl, rfl⟩
    obtain ⟨t, e, he, -, hreports⟩ := (mem_inward hg).mp hr
    obtain rfl := hreports.finish
    refine ⟨hopResult r.finish .outward a e, ?_, rfl, ?_, ?_⟩
    · exact mem_outward.mpr ⟨a, e, he, rfl, reports_iff.mpr rfl⟩
    · rw [length_hopResult, hreports.length]
    · rw [rules_hopResult, hreports.rules]
  · rintro ⟨r, hr, rfl, rfl, rfl⟩
    obtain ⟨t, e, he, -, hreports⟩ := mem_outward.mp hr
    obtain rfl := hreports.finish
    refine ⟨hopResult r.finish .inward b e, ?_, rfl, ?_, ?_⟩
    · exact (mem_inward hg).mpr ⟨b, e, he, rfl, reports_iff.mpr rfl⟩
    · rw [length_hopResult, hreports.length]
    · rw [rules_hopResult, hreports.rules]

end FlowGraph

end PolicyReach
