import PolicyReach.Proofs.DomainTransition.Duality
import PolicyReach.Proofs.Flow.HopModes
import PolicyReach.Proofs.Flow.Walk
import PolicyReach.Proofs.Relabel.ObjectModes
import PolicyReach.Proofs.Session.Calls

/-!
# Filters apply to results

Each analysis tries its filters at another place: on the neighbours of the start type, between the search
and the walks, before the entrypoints of a domain are looked up, between the rules found and their groups.
Wherever it does, it comes down to an analysis without filters whose results are filtered.

* `NameFilter.Matches`: the name of a type or one of its aliases matches; `passes_iff` says that nothing
  else counts;
* `FlowGraph.results_eq_filter`, **`analyzeHops_filtered`**, **`analyzeReach_filtered`**: flows are kept by
  the type found, and the session behind the handle is the same but for its filter;
* **`Policy.transitions_filtered`**: domain transitions are kept by the domain found, and get its rules that
  meet the access filter;
* **`Policy.analyzeRelabel_filtered`**: results of relabelling are kept by their subject;
* `FlowContext.filters_apply_last`: all of it together.

A filter stands for its pattern only through `Pattern.matchesIn`, a predicate on strings.
-/

namespace PolicyReach

/-- The name of the type or one of its aliases matches. -/
def NameFilter.Matches (f : NameFilter) (p : Policy) (t : TypeName) : Prop :=
  f.pattern.matchesIn t.text = true ∨ ∃ name ∈ p.aliasesOf t, f.pattern.matchesIn name = true

theorem NameFilter.passes_iff {f : Option NameFilter} {p : Policy} {t : TypeName} :
    NameFilter.passes f p t = true ↔ ∀ g ∈ f, g.Matches p t := by
  cases f with
  | none => simp [passes]
  | some f => simp [passes, accepts, Matches]

/-! ## Filtering before and after -/

section Lists

variable {α β : Type} {l : List α} {P : α → Bool} {Q : β → Bool}

theorem flatMap_filter_eq {f g : α → List β} (hin : ∀ a ∈ l, P a = true → g a = (f a).filter Q)
    (hout : ∀ a ∈ l, P a = false → (f a).filter Q = []) :
    (l.filter P).flatMap g = (l.flatMap f).filter Q := by
  induction l with
  | nil => rfl
  | cons a l ih =>
    have ih := ih (fun b hb => hin b (List.mem_cons_of_mem a hb))
      fun b hb => hout b (List.mem_cons_of_mem a hb)
    rw [List.flatMap_cons, List.filter_append, ← ih]
    cases ha : P a with
    | true => rw [List.filter_cons_of_pos ha, List.flatMap_cons, hin a List.mem_cons_self ha]
    | false =>
      rw [List.filter_cons_of_neg (Bool.not_eq_true _ ▸ ha), hout a List.mem_cons_self ha, List.nil_append]

theorem filterMap_filter_eq {f : α → Option β} (h : ∀ a ∈ l, ∀ b, f a = some b → Q b = P a) :
    (l.filter P).filterMap f = (l.filterMap f).filter Q := by
  rw [List.filterMap_filter, List.filter_filterMap]
  refine List.filterMap_congr fun a ha => ?_
  cases hb : f a with
  | none => simp
  | some b => simp [Option.filter, h a ha b hb]

end Lists

/-! ## Flows -/

namespace FlowGraph

variable {g : FlowGraph} {p : Policy} {f : Option NameFilter} {start finish : TypeName}

/-- The edges that are wanted are those wanted without a filter that lead to types that pass. -/
theorem get?_wantedFan_filter (wanted : Bool) (o : Orientation) (t : TypeName) :
    (g.wantedFan p f wanted o start).get? t =
      if NameFilter.passes f p t = true then (g.wantedFan p none wanted o start).get? t else none := by
  refine Option.ext fun e => ?_
  rw [get?_wantedFan]
  split
  · rename_i hpass
    rw [get?_wantedFan, hpass]
    rfl
  · rename_i hpass
    simp [hpass]

/-- **One-hop flows are kept by the type found.** -/
theorem hopResults_eq_filter (direction : FlowDirection) :
    g.hopResults p f direction start =
      (g.hopResults p none direction start).filter fun r => NameFilter.passes f p r.finish := by
  have hends : (g.hopEnds p f direction start).toList =
      (g.hopEnds p none direction start).toList.filter fun t => NameFilter.passes f p t := by
    rw [← OrdSet.toList_filter, OrdSet.toList_inj]
    refine OrdSet.ext fun t => ?_
    simp only [OrdSet.mem_filter, mem_hopEnds, get?_wantedFan_filter (f := f)]
    cases NameFilter.passes f p t <;> simp
  have hfinish (t : TypeName) (inward outward : Option Edge) (r : FlowResult)
      (hr : r ∈ (if direction = .either then together start else apart start) t inward outward) :
      r.finish = t := by
    split at hr
    · exact finish_of_mem_together hr
    · exact finish_of_mem_apart hr
  rw [hopResults_eq, hopResults_eq, hends]
  refine flatMap_filter_eq (fun t _ hpass => ?_) fun t _ hpass => ?_
  · rw [get?_wantedFan_filter (f := f), get?_wantedFan_filter (f := f), if_pos hpass, if_pos hpass]
    exact (List.filter_eq_self.mpr fun r hr => hfinish t _ _ r hr ▸ hpass).symm
  · refine List.filter_eq_nil_iff.mpr fun r hr => ?_
    rw [hfinish t _ _ r hr, hpass]
    exact Bool.false_ne_true

/-- The flow along the walk to a type ends at that type. -/
theorem finish_of_walkTo? {s : Reached} {o : Orientation} {direction : FlowDirection} {t : TypeName}
    {r : FlowResult} (hr : (s.walkTo? t).bind (g.walkResult? o direction start) = some r) :
    r.finish = t := by
  obtain ⟨walk, hwalk, hr⟩ := Option.bind_eq_some_iff.mp hr
  obtain ⟨finish, edges, hfinish, -, rfl⟩ := walkResult?_eq_some hr
  exact Option.some.inj (hfinish.symm.trans (Reached.getLast?_walkTo? hwalk))

/-- **Flows over many hops are kept by the type found.** -/
theorem reachResults_eq_filter (direction : ReachDirection) :
    g.reachResults p f direction start =
      (g.reachResults p none direction start).filter fun r => NameFilter.passes f p r.finish := by
  have hkeep : (fun t => t != start && NameFilter.passes f p t) =
      fun t => NameFilter.passes f p t && (t != start && NameFilter.passes none p t) := by
    funext t
    simp [NameFilter.passes, Bool.and_comm]
  unfold reachResults
  dsimp only
  rw [hkeep, ← List.filter_filter,
    filterMap_filter_eq fun t _ r hr => congrArg _ (finish_of_walkTo? hr)]

theorem results_eq_filter (kind : FlowKind) :
    g.results p f kind start =
      (g.results p none kind start).filter fun r => NameFilter.passes f p r.finish := by
  cases kind with
  | hop direction => exact hopResults_eq_filter direction
  | reach direction => exact reachResults_eq_filter direction

end FlowGraph

/-- Analyses with and without the filter `f` fail with one error, or give the same results but for the types
found that do not pass, and register the same session but for its filter under the same handle. -/
inductive FlowContext.Filtered (c : FlowContext) (f : Option NameFilter) (r : FlowRegistry) :
    Except AnalysisError ((List FlowResult × Handle) × FlowRegistry) →
    Except AnalysisError ((List FlowResult × Handle) × FlowRegistry) → Prop
  | error (e : AnalysisError) : Filtered c f r (.error e) (.error e)
  | ok (results : List FlowResult) {h : Handle} {v : FlowSession} {r' r₀ : FlowRegistry}
      (registered : Registry.register r { v with filter := f } = some (h, r'))
      (registered₀ : Registry.register r v = some (h, r₀)) :
      Filtered c f r
        (.ok ((results.filter fun x => NameFilter.passes f c.policy x.finish, h), r'))
        (.ok ((results, h), r₀))

namespace FlowContext

variable (c : FlowContext) (r : FlowRegistry)

/-- Whether and where there is room does not depend on what is registered. -/
theorem handle_register {α : Type} (r : Registry α) (v w : α) :
    (r.register v).map Prod.fst = (r.register w).map Prod.fst := by
  unfold Registry.register
  split
  · split <;> rfl
  · split <;> rfl

theorem Filtered.bind {α : Type} {f : Option NameFilter} {x : Except AnalysisError α}
    {y y₀ : α → Except AnalysisError ((List FlowResult × Handle) × FlowRegistry)}
    (hy : ∀ a, Filtered c f r (y a) (y₀ a)) : Filtered c f r (x >>= y) (x >>= y₀) := by
  cases x with
  | error e => exact .error e
  | ok a => exact hy a

theorem begin_filtered (permissions : PermissionMap) (criteria : Criteria) (kind : FlowKind)
    (f : Option NameFilter) (start : TypeName) :
    c.Filtered f r (c.begin r permissions criteria kind f start)
      (c.begin r permissions criteria kind none start) := by
  refine .bind c r fun graph => ?_
  let v : FlowSession := { index := c.policy.flows permissions criteria, graph, kind, filter := none }
  have hsame := handle_register r { v with filter := f } v
  dsimp only
  cases hv : Registry.register r v with
  | none =>
    cases hf : Registry.register r { v with filter := f } with
    | none => exact .error _
    | some x =>
      rw [hv, hf] at hsame
      exact nomatch hsame
  | some x₀ =>
    cases hf : Registry.register r { v with filter := f } with
    | none =>
      rw [hv, hf] at hsame
      exact nomatch hsame
    | some x =>
      obtain ⟨h, r'⟩ := x
      obtain ⟨h₀, r₀⟩ := x₀
      rw [hv, hf] at hsame
      obtain rfl : h = h₀ := Option.some.inj hsame
      dsimp only
      rw [FlowGraph.results_eq_filter]
      exact .ok _ hf hv

/-- **A result filter of a one-hop analysis applies to its results.** -/
theorem analyzeHops_filtered (q : HopQuery) :
    c.Filtered q.filter r (c.analyzeHops r q) (c.analyzeHops r { q with filter := none }) :=
  .bind c r fun _ => .bind c r fun _ => c.begin_filtered r _ _ _ _ _

/-- **A result filter of an analysis over many hops applies to its results.** -/
theorem analyzeReach_filtered (q : ReachQuery) :
    c.Filtered q.filter r (c.analyzeReach r q) (c.analyzeReach r { q with filter := none }) :=
  .bind c r fun _ => .bind c r fun _ => .bind c r fun _ => c.begin_filtered r _ _ _ _ _

end FlowContext

/-! ## Domain transitions -/

/-- The query without filters. -/
def TransitionQuery.bare (q : TransitionQuery) : TransitionQuery :=
  { direction := q.direction, start := q.start }

namespace Policy

variable {p : Policy} {q : TransitionQuery} {access : Option AccessFilter}
  {start found source target : TypeName}

/-- Does a domain pass both filters? -/
def passesBoth (p : Policy) (q : TransitionQuery) (access : Option AccessFilter) (t : TypeName) : Bool :=
  NameFilter.passes q.filter p t && !(access.isSome && (p.rulesMeeting access t).isEmpty)

/-- The access filter adds nothing but its rules to a transition. -/
theorem pairTransitions_access (transition rules : OrdSet RuleId) :
    p.pairTransitions source target transition rules =
      (p.pairTransitions source target transition ∅).map fun d =>
        { d with accessRules := rules.toList } := by
  unfold pairTransitions
  rw [List.map_map]
  rfl

/-- The transitions whose domain found passes both filters, each with the rules of this domain that meet the
access filter. -/
def keepTransitions (p : Policy) (q : TransitionQuery) (access : Option AccessFilter)
    (ds : List DomainTransition) : List DomainTransition :=
  (ds.filter fun d => p.passesBoth q access (q.direction.far d.source d.target)).map fun d =>
    { d with accessRules := (p.rulesMeeting access (q.direction.far d.source d.target)).toList }

theorem foundTransitions_filtered (transition : OrdSet RuleId) :
    p.foundTransitions q access start found transition =
      p.keepTransitions q access (p.foundTransitions q.bare none start found transition) := by
  by_cases heq : start = found
  · simp [foundTransitions, keepTransitions, heq]
  have hbare : p.foundTransitions q.bare none start found transition =
      p.pairTransitions (q.direction.near start found) (q.direction.far start found) transition ∅ := by
    rw [foundTransitions_of_no_filter rfl]
    exact if_neg (TransitionDirection.near_ne_far.mpr heq)
  have hfar {d : DomainTransition} (hd : d ∈ p.pairTransitions (q.direction.near start found)
      (q.direction.far start found) transition ∅) : q.direction.far d.source d.target = found := by
    obtain ⟨hsource, htarget, -⟩ := mem_pairTransitions.mp hd
    rw [hsource, htarget, q.direction.far_near_far]
  rw [hbare, foundTransitions, keepTransitions]
  cases hpass : p.passesBoth q access found with
  | true =>
    obtain ⟨hname, hmeets⟩ := Bool.and_eq_true_iff.mp hpass
    rw [Bool.not_eq_true'] at hmeets
    rw [if_neg (by simp [heq, hname]), hmeets, if_neg Bool.false_ne_true, pairTransitions_access,
      List.filter_eq_self.mpr fun d hd => (congrArg (p.passesBoth q access) (hfar hd)).trans hpass]
    exact List.map_congr_left fun d hd => by rw [hfar hd]
  | false =>
    rw [List.filter_eq_nil_iff.mpr fun d hd => by simp [hfar hd, hpass], List.map_nil]
    rcases Bool.and_eq_false_iff.mp hpass with hname | hmeets
    · rw [if_pos (Or.inr hname)]
    · rw [Bool.not_eq_false'] at hmeets
      rw [hmeets, if_pos rfl, ite_self]

theorem transitionsAt_filtered (p : Policy) (q : TransitionQuery) (access : Option AccessFilter)
    (start : TypeName) :
    p.transitionsAt q access start = p.keepTransitions q access (p.transitionsAt q.bare none start) := by
  unfold transitionsAt keepTransitions
  rw [List.filter_flatMap, List.map_flatMap]
  exact List.flatMap_congr fun e _ => foundTransitions_filtered e.2

/-- **The filters of a search for domain transitions apply to its results**, by the domain found, which
gets its rules that meet the access filter. -/
theorem transitions_filtered (haccess : AccessFilter.ofQuery p q = .ok access) :
    p.transitions q = (p.transitions q.bare).map (p.keepTransitions q access) := by
  cases hstart : p.resolve q.start with
  | none => simp only [transitions, TransitionQuery.bare, hstart, Except.map]
  | some start =>
    rw [transitions_of_no_filter (q := q.bare) hstart rfl, transitions, hstart]
    simp only [haccess, Except.map, transitionsAt_filtered p q access start]

end Policy

/-! ## Relabelling -/

/-- The query without filters on subjects. -/
def RelabelQuery.bare (q : RelabelQuery) : RelabelQuery :=
  { mode := q.mode, start := q.start, classes := q.classes }

namespace Policy

variable {p : Policy} {q : RelabelQuery} {subjects : Option (OrdSet TypeName)}

theorem relabelOfObject_filtered (hsubjects : p.relabelSubjects q = .ok subjects) (o : TypeName) :
    p.relabelOfObject q o = (p.relabelOfObject q.bare o).map fun results =>
      results.filter fun x =>
        (subjects.all fun set => set.contains x.subject) && NameFilter.passes q.filter p x.subject := by
  have hbare : p.relabelSubjects q.bare = .ok none := if_pos rfl
  unfold relabelOfObject
  rw [hsubjects, hbare]
  refine congrArg Except.ok ?_
  dsimp only
  rw [List.filter_map, List.filter_filter]
  refine congrArg (List.map _) (List.filter_congr fun e _ => ?_)
  simp only [Function.comp_apply, PairGrants.result_subject, RelabelQuery.bare, NameFilter.passes,
    Option.all_none, Bool.true_and, Bool.and_true]
  exact Bool.and_right_comm _ _ _

/-- **The filters of an analysis of relabelling apply to its results**, by their subjects, in the modes that
are about an object type. -/
theorem analyzeRelabel_filtered (hmode : q.mode ≠ .subject) (hsubjects : p.relabelSubjects q = .ok subjects) :
    p.analyzeRelabel q = (p.analyzeRelabel q.bare).map fun results =>
      results.filter fun x =>
        (subjects.all fun set => set.contains x.subject) && NameFilter.passes q.filter p x.subject := by
  unfold analyzeRelabel RelabelQuery.bare
  dsimp only
  cases p.resolve q.start with
  | none => rfl
  | some start =>
    dsimp only
    rw [if_neg hmode, if_neg hmode]
    exact relabelOfObject_filtered hsubjects start

end Policy

/-! ## All analyses -/

/-- **Filters apply last.** Whatever the policy, and whatever the filters' patterns match:
an analysis of flows, of one hop or many, succeeds with a result filter if and only if it does without one,
and then gives the results of the latter whose type found has a matching name or alias;
a search for domain transitions whose access filter resolves gives, in order, the records of the search
without filters whose domain found passes both filters, changed in their access rules only, which are the
rules that meet the access filter, at least one if there is such a filter;
an analysis of relabelling about an object type whose subject filter resolves gives the results of the one
without filters whose subject passes both. -/
theorem FlowContext.filters_apply_last (c : FlowContext) (r : FlowRegistry) (m : GrantMemo) :
    (∀ f t, NameFilter.passes f c.policy t = true ↔ ∀ g ∈ f, g.Matches c.policy t) ∧
    (∀ q : HopQuery,
      c.Filtered q.filter r (c.analyzeHops r q) (c.analyzeHops r { q with filter := none })) ∧
    (∀ q : ReachQuery,
      c.Filtered q.filter r (c.analyzeReach r q) (c.analyzeReach r { q with filter := none })) ∧
    (∀ (q : TransitionQuery) (access : Option AccessFilter),
      AccessFilter.ofQuery c.policy q = .ok access →
      ∃ rules : TypeName → List RuleId,
        (∀ t, Enumerates (rules t) fun id =>
          q.hasAccessFilter = true ∧ ∃ a, q.Meets c.policy t a ∧ a.id = id) ∧
        (m.analyze c.policy q).1 =
          (m.analyze c.policy { direction := q.direction, start := q.start }).1.map fun ds =>
            (ds.filter fun d =>
              let found := q.direction.far d.source d.target
              NameFilter.passes q.filter c.policy found
                && (!q.hasAccessFilter || !(rules found).isEmpty)).map fun d =>
            { d with accessRules := rules (q.direction.far d.source d.target) }) ∧
    ∀ q : RelabelQuery, q.mode ≠ .subject → ∀ subjects, c.policy.relabelSubjects q = .ok subjects →
      ∃ pass : TypeName → Bool, (∀ s, pass s = true ↔ q.Admits c.policy s) ∧
        c.policy.analyzeRelabel q =
          (c.policy.analyzeRelabel { mode := q.mode, start := q.start, classes := q.classes }).map
            fun results => results.filter fun x => pass x.subject := by
  refine ⟨fun f t => NameFilter.passes_iff, c.analyzeHops_filtered r, c.analyzeReach_filtered r,
    fun q access haccess => ?_, fun q hmode subjects hsubjects => ?_⟩
  · refine ⟨fun t => (c.policy.rulesMeeting access t).toList,
      fun t => OrdSet.enumerates fun id => AccessFilter.mem_rulesMeeting haccess, ?_⟩
    rw [GrantMemo.analyze_eq, GrantMemo.analyze_eq, Policy.transitions_filtered haccess]
    refine congrArg (Except.map · (c.policy.transitions q.bare)) (funext fun ds => ?_)
    unfold Policy.keepTransitions
    refine congrArg (List.map _) (List.filter_congr fun d _ => ?_)
    dsimp only
    rw [Policy.passesBoth, AccessFilter.isSome_ofQuery haccess, Bool.not_and, OrdSet.isEmpty_toList]
  · refine ⟨fun s => (subjects.all fun set => set.contains s) && NameFilter.passes q.filter c.policy s,
      fun s => ?_, Policy.analyzeRelabel_filtered hmode hsubjects⟩
    rw [Bool.and_eq_true_iff, Policy.all_relabelSubjects hsubjects]
    exact Iff.rfl

/-- The search back from `b` finds `a` under its alias `x`, with the rule that lets it execute `e`; of the
subjects that relabel `o`, only `a` is asked about. -/
theorem sample_filters_apply_last :
    let p := Policy.sampleDomains.addAlias "a" "x"
    let m := GrantMemo.ofConfig {}
    let q : TransitionQuery :=
      { direction := .reverse, start := "b", classPerms := .ofList [⟨"file", "execute"⟩]
        filter := some ⟨"x", .char 'x'⟩ }
    let relabel : RelabelQuery := { mode := .both, start := "o", subjects := .ofList ["a"] }
    (m.analyze p q).1 = .ok [{ DomainTransition.sample with accessRules := [⟨1⟩] }] ∧
    (∃ rules : TypeName → List RuleId,
      (∀ t, Enumerates (rules t) fun id => q.hasAccessFilter = true ∧ ∃ a, q.Meets p t a ∧ a.id = id) ∧
      (m.analyze p q).1 = .ok (([DomainTransition.sample].filter fun d =>
          NameFilter.passes q.filter p d.source && (!q.hasAccessFilter || !(rules d.source).isEmpty)).map
        fun d => { d with accessRules := rules d.source })) ∧
    ∃ pass : TypeName → Bool, (∀ s, pass s = true ↔ relabel.Admits Policy.sampleRelabel s) ∧
      Policy.sampleRelabel.analyzeRelabel relabel =
        .ok ([⟨[], [], [⟨0⟩, ⟨1⟩], ⟨"a"⟩⟩, ⟨[], [⟨2⟩], [], ⟨"b"⟩⟩].filter fun x => pass x.subject) := by
  intro p m q relabel
  let c : FlowContext := ⟨p, none, {}⟩
  let c' : FlowContext := ⟨Policy.sampleRelabel, none, {}⟩
  have hbare : (m.analyze p { direction := .reverse, start := "b" }).1 = .ok [.sample] := by
    decide +kernel
  have hbare' : Policy.sampleRelabel.analyzeRelabel { mode := .both, start := "o" } =
      .ok [⟨[], [], [⟨0⟩, ⟨1⟩], ⟨"a"⟩⟩, ⟨[], [⟨2⟩], [], ⟨"b"⟩⟩] := by
    decide +kernel
  refine ⟨by decide +kernel, ?_, ?_⟩
  · obtain ⟨rules, hrules, hresults⟩ :=
      (c.filters_apply_last .empty m).2.2.2.1 q (some ⟨none, q.classPerms⟩) rfl
    exact ⟨rules, hrules, hresults.trans (congrArg _ hbare)⟩
  · have hnames : (Policy.sampleRelabel.relabelSubjects relabel).isOk = true := by decide +kernel
    obtain ⟨subjects, hsubjects⟩ := exists_ok hnames
    obtain ⟨pass, hpass, hresults⟩ :=
      (c'.filters_apply_last .empty m).2.2.2.2 relabel nofun subjects hsubjects
    exact ⟨pass, hpass, hresults.trans (congrArg _ hbare')⟩

end PolicyReach
