import PolicyReach.Proofs.Flow.EarlyStop
import PolicyReach.Proofs.Session.Continuation
import PolicyReach.Proofs.Session.Enumeration

/-!
# The first path is the flow reported

An analysis over many hops reports a flow for every type that it finds. When paths from its start to
such a type are enumerated later on, the first one is that very flow: not just of the same length, but
with the same steps and rules.

* `FlowSession.Continues`, **`own?_after`**: whatever a run does, what a handle names keeps its index,
  its kind and the roots that its graph has been grown from;
* `FlowContext.reported_of_analyzeReach`: an analysis reports what its index gives at its start, and
  this is a root of the graph that it leaves behind;
* `prepareFurther_of_root`: preparing an enumeration from a root succeeds;
* **`first_path_reported`**: over a whole run, the first path to a type is the flow that has been
  reported for it, and there is none to take if none has been reported.
-/

namespace PolicyReach

open Registry (resolve own?)

/-! ## What becomes of a flow session -/

/-- What calls make of a flow session keeps its index and kind, and the roots of its graph. -/
structure FlowSession.Continues (v v' : FlowSession) : Prop where
  index : v'.index = v.index
  kind : v'.kind = v.kind
  roots : ∀ t ∈ v.graph.roots, t ∈ v'.graph.roots

namespace FlowSession

variable {v v' w : FlowSession} {config : Config} {call : Call} {direction : ReachDirection}
  {start finish : TypeName} {limit : Nat}

theorem Continues.refl (v : FlowSession) : v.Continues v := ⟨rfl, rfl, fun _ ht => ht⟩

theorem Continues.trans (h : v.Continues v') (h' : v'.Continues w) : v.Continues w :=
  ⟨h'.index.trans h.index, h'.kind.trans h.kind, fun t ht => h'.roots t (h.roots t ht)⟩

theorem Step.continues (h : v.Step config call v') : v.Continues v' := by
  cases h with
  | continued grown =>
    exact ⟨rfl, rfl, fun t ht => (FlowGraph.mem_roots_of_grow grown t).mpr (Or.inr ht)⟩
  | prepared call kind ends grown =>
    exact ⟨rfl, rfl, fun t ht => (FlowGraph.mem_roots_of_grow grown t).mpr (Or.inr ht)⟩
  | taken call under next => exact ⟨rfl, rfl, fun _ ht => ht⟩
  | aborted call => exact ⟨rfl, rfl, fun _ ht => ht⟩

/-- The flow along the path that is taken first is the one along the lightest walk found. -/
theorem first_flow {index : FlowGraph} (hkind : v.kind = .reach direction)
    (hc : (PathEnumeration.blank start finish direction.orientation limit).Carries index v.graph)
    {best : Candidate} {e : PathEnumeration}
    (h : (PathEnumeration.prepare v.graph start finish direction.orientation limit).next v.graph =
      .ok (some (best, e))) :
    v.graph.walkResult? e.orientation v.pathDirection e.start best.walk =
      v.graph.lightestFlow? direction start finish := by
  have hfirst := PathEnumeration.first_eq hc h
  obtain ⟨-, hstart, -, horient, -⟩ := PathEnumeration.tracks_prepare hc
  obtain ⟨hstart', horient'⟩ := PathEnumeration.ends_of_next h
  have hdirection : v.pathDirection = direction.flowDirection := by
    unfold pathDirection
    rw [hkind]
  unfold FlowGraph.lightestFlow?
  rw [← hfirst, hdirection, hstart', hstart, horient', horient]
  rfl

end FlowSession

namespace FlowContext

variable {c : FlowContext} {r r' : FlowRegistry} {h : Handle}

/-- **An analysis reports what its index gives at its start**, and this is a root of the graph that it
leaves behind. -/
theorem reported_of_analyzeReach {q : ReachQuery} {results : List FlowResult} (hr : Registry.Sound r)
    (ha : c.analyzeReach r q = .ok ((results, h), r')) :
    ∃ m start v, c.permissions = some m ∧ c.policy.resolve q.start = some start ∧
      own? r' h = some v ∧ v.kind = .reach q.direction ∧ start ∈ v.graph.roots ∧
      results = v.index.reachResults c.policy q.filter q.direction start := by
  obtain ⟨m, start, types, hm, hstart, -, hb⟩ := analyzeReach_eq_ok ha
  obtain ⟨graph, hgraph, hresults, hreg⟩ := begin_eq_ok hb
  have hsound := c.policy.flows_sound m (q.criteria types)
  have hscope : (c.policy.flows m (q.criteria types)).criteria.scope = .transitive q.direction := by
    rw [Policy.flows_criteria]
    rfl
  obtain ⟨hgrown, hroot, -⟩ :=
    FlowGraph.grow_grown hsound (FlowGraph.grown_empty _ _) hgraph
  refine ⟨m, start, _, hm, hstart, Registry.own?_register_self hr hreg, rfl, hroot, ?_⟩
  exact hresults.trans (hgrown.reachResults_eq hsound hscope hroot _ _)

/-- **Preparing an enumeration from a root succeeds**: the graph need not be grown. -/
theorem prepareFurther_of_root {v : FlowSession} {m : PermissionMap} {direction : ReachDirection}
    {first last : String} {start finish : TypeName} (hv : resolve r h = .ok v)
    (hkind : v.kind = .reach direction) (hm : c.permissions = some m)
    (hfirst : c.policy.resolve first = some start) (hlast : c.policy.resolve last = some finish)
    (hne : start ≠ finish) (hroot : start ∈ v.graph.roots) :
    c.prepareFurther r h first last = .ok ((), Registry.replace r h
      { v with
        enumeration :=
          some (.prepare v.graph start finish direction.orientation c.config.maxCandidates) }) := by
  unfold prepareFurther
  rw [FlowRegistry.session_eq_ok_iff.mpr hv, permissionMap_eq_ok_iff.mpr hm,
    typeOf_eq_ok_iff.mpr hfirst, typeOf_eq_ok_iff.mpr hlast]
  simp only [bind, Except.bind, hkind, if_neg hne, FlowGraph.grow_of_mem_roots hroot]

end FlowContext

namespace Session

variable {s s' : Session} {c : Call} {h : Handle} {v v' : FlowSession}

/-- What a handle names after a call that does not give it out has come from what it has named. -/
theorem Effect.continues (hs : Registry.Sound s.registry) (he : Effect s c s') (hnew : ¬ s.Gives c h)
    (hv' : own? s'.registry h = some v') : ∃ v, own? s.registry h = some v ∧ v.Continues v' := by
  rcases he.own?_cases hs hv' with hold | ⟨hgives, -⟩ | ⟨v, hv, -, hstep⟩
  · exact ⟨v', hold, .refl v'⟩
  · exact absurd hgives hnew
  · exact ⟨v, (Registry.resolve_eq_ok_iff_own?.mp hv).1, hstep.continues⟩

/-- **What a handle names after a run has come from what it has named before**, unless the run gives it
out. -/
theorem own?_after {cs : List Call} (hs : Registry.Sound s.registry) (hlast : h ∉ s.issued cs)
    (hv' : own? (s.after cs).registry h = some v') :
    ∃ v, own? s.registry h = some v ∧ v.Continues v' := by
  induction cs generalizing s with
  | nil => exact ⟨v', hv', .refl v'⟩
  | cons c cs ih =>
    rw [issued_cons, List.mem_append, Option.mem_toList, ← gives_iff] at hlast
    have heffect := call_effect s c
    obtain ⟨w, hw, hlater⟩ := ih (heffect.sound hs) (fun hmem => hlast (Or.inr hmem)) hv'
    obtain ⟨v, hv, hstep⟩ := heffect.continues hs (fun hgives => hlast (Or.inl hgives)) hw
    exact ⟨v, hv, hstep.trans hlater⟩

/-! ## Preparing an enumeration and taking its first path -/

variable {p : Policy} {m : PermissionMap} {direction : ReachDirection} {start finish : TypeName}
  {first last : String} {limit : Nat}

/-- What is taken first from an enumeration that has been prepared over the graph as it is. -/
theorem first_taking {index : FlowGraph} (hp : s.policy = some p) (hv : resolve s.registry h = .ok v)
    (hkind : v.kind = .reach direction)
    (hunder : v.enumeration = some (.prepare v.graph start finish direction.orientation limit))
    (hc : (PathEnumeration.blank start finish direction.orientation limit).Carries index v.graph) :
    (s.call (.nextFurther h)).1 =
        .ok (.flows (v.graph.lightestFlow? direction start finish).toList) ∨
      ∃ queued, limit < queued ∧ (s.call (.nextFurther h)).1 =
        .error (.allocation (.candidates start finish queued limit)) := by
  rcases next_cases s h with ⟨error, he⟩ | ⟨w, e, hw, hw', htaken⟩
  · right
    have herror : (s.nextFurther h).1 = .error error := map_eq_error (congrArg Prod.fst he)
    have hnext := FlowRegistry.nextFurther_error hv hunder ((onFlows_eq_error_iff hp).mp herror)
    obtain ⟨queued, hmany, rfl⟩ := PathEnumeration.next_error hnext
    obtain ⟨-, hstart, hfinish, -, hlimit, -⟩ := PathEnumeration.tracks_prepare hc
    rw [hlimit] at hmany
    rw [he, hstart, hfinish, hlimit]
    exact ⟨queued, hmany, rfl⟩
  · left
    obtain rfl := Except.ok.inj (hv.symm.trans hw)
    obtain rfl := Option.some.inj (hunder.symm.trans hw')
    rcases htaken with ⟨hnext, he⟩ | ⟨best, e', hnext, he⟩
    · have hwalk := PathEnumeration.first_eq hc hnext
      rw [he, FlowGraph.lightestFlow?, ← hwalk]
      rfl
    · rw [he, FlowSession.first_flow hkind hc hnext]

/-- **From a root of its graph, a flow session can be asked for paths, and gives the flow along the
lightest walk found first**, unless its queue would get too long. -/
theorem Founded.first_path (hs : s.Founded) (hlimit : s.config.maxGraphEdges ≤ FlowGraph.edgeBound)
    (hp : s.policy = some p) (hm : s.permissions = some m) (hv : resolve s.registry h = .ok v)
    (hkind : v.kind = .reach direction) (hroot : start ∈ v.graph.roots)
    (hfirst : p.resolve first = some start) (hlast : p.resolve last = some finish)
    (hne : start ≠ finish) :
    ∃ s₁, s.call (.prepareFurther h first last) = (.ok .done, s₁) ∧
      ((s₁.call (.nextFurther h)).1 =
          .ok (.flows (v.graph.lightestFlow? direction start finish).toList) ∨
        ∃ queued, s.config.maxCandidates < queued ∧ (s₁.call (.nextFurther h)).1 =
          .error (.allocation (.candidates start finish queued s.config.maxCandidates))) := by
  obtain ⟨hheld, hepoch⟩ := Registry.resolve_eq_ok_iff.mp hv
  have hv' : v.Founded s.config := hs.flows.of_held hheld
  let w : FlowSession :=
    { v with
      enumeration :=
        some (.prepare v.graph start finish direction.orientation s.config.maxCandidates) }
  have hprepare : s.prepareFurther h first last =
      (.ok (), { s with registry := Registry.replace s.registry h w }) :=
    onFlows_eq hp (FlowContext.prepareFurther_of_root hv hkind hm hfirst hlast hne hroot)
  have hw : resolve (Registry.replace s.registry h w) h = .ok w :=
    Registry.resolve_eq_ok_iff_own?.mpr ⟨(Registry.own?_replace hv w h).trans (if_pos rfl), hepoch⟩
  refine ⟨_, congrArg (Answer.ofOutcome fun _ => .done) hprepare, ?_⟩
  exact first_taking (v := w) hp hw hkind rfl
    (PathEnumeration.carries_of_grown hv'.index hv'.grown hlimit (hv'.transitive hkind) rfl hroot)

/-! ## Runs -/

variable {q : ReachQuery} {a : Answer}

/-- **What a handle names still holds what has been reported with it**: the policy and the permission map
are the same, and its index gives those flows at the start of the query, a root of its graph. -/
theorem Issued.reported {s₀ : Session} (h₀ : s₀.Initial) {pre later : List Call}
    (hissued : s₀.Issued pre c later h (.reach q)) (ha : ((s₀.after pre).call c).1 = .ok a)
    (hv : resolve (s₀.after (pre ++ c :: later)).registry h = .ok v) :
    ∃ p m start, (s₀.after (pre ++ c :: later)).policy = some p ∧
      (s₀.after (pre ++ c :: later)).permissions = some m ∧ p.resolve q.start = some start ∧
      v.kind = .reach q.direction ∧ start ∈ v.graph.roots ∧
      a.reported = v.index.reachResults p q.filter q.direction start := by
  have hsound : Registry.Sound (s₀.after pre).registry := sound_after h₀.current.sound
  obtain ⟨a', ha', hh⟩ := hissued.gives
  obtain rfl := Except.ok.inj (ha'.symm.trans ha)
  obtain ⟨results, hresults, hcall, hsame⟩ := analyzeFlows_of_answer hissued.asks ha hh
  obtain ⟨p, r, hp, hok, hafter⟩ := onFlows_ok hresults
  obtain ⟨m, start, w, hm, hstart, hw, hkind, hroot, hreported⟩ :=
    FlowContext.reported_of_analyzeReach hsound hok
  obtain ⟨-, hissue⟩ := serves_of_gives hsound hissued.asks hissued.gives
  -- from the call on, the policy stays, and what the handle names keeps its index and its roots
  have hsound' := (call_effect (s₀.after pre) c).sound hsound
  rw [after_append, after_cons] at hv ⊢
  obtain ⟨hown, hepoch⟩ := Registry.resolve_eq_ok_iff_own?.mp hv
  have hnone := invalidations_eq_zero hsound' hissued.epochs (hepoch.symm.trans hissue)
  obtain ⟨hpolicy, hpermissions⟩ := policy_after hsound' hnone
  obtain ⟨w', hw', hcontinues⟩ := own?_after hsound' hissued.last hown
  have hcall := hcall.trans hafter
  rw [hcall] at hw'
  obtain rfl := Option.some.inj (hw.symm.trans hw')
  refine ⟨p, m, start, (hpolicy.trans (congrArg policy hcall)).trans hp,
    (hpermissions.trans (congrArg permissions hcall)).trans hm, hstart,
    hcontinues.kind.trans hkind, hcontinues.roots _ hroot, ?_⟩
  rw [hcontinues.index, hsame q rfl]
  exact hreported

/-- **The first path is the flow reported.** In every state that a run of calls reaches, let a handle
resolve that was given out for a query over many hops without a filter, from `start`. Then an enumeration
of the paths from `start` to any other type can be prepared under it, and what is taken first, unless the
queue of candidates would get too long, is the flow to that type that was reported with the handle, or
nothing if none was. -/
theorem first_path_reported {s₀ : Session} (h₀ : s₀.Initial)
    (hlimit : s₀.config.maxGraphEdges ≤ FlowGraph.edgeBound) {pre later : List Call}
    (hmaps : ∀ m, .loadPermissions m ∈ pre ++ c :: later → m.Built)
    (hissued : s₀.Issued pre c later h (.reach q)) (hfilter : q.filter = none)
    (ha : ((s₀.after pre).call c).1 = .ok a)
    (hv : resolve (s₀.after (pre ++ c :: later)).registry h = .ok v) :
    let s := s₀.after (pre ++ c :: later)
    ∃ p start, s.policy = some p ∧ p.resolve q.start = some start ∧
      ∀ first last finish, p.resolve first = some start → p.resolve last = some finish →
        finish ≠ start → ∃ s₁ found, s.call (.prepareFurther h first last) = (.ok .done, s₁) ∧
          a.reported.filter (fun r => r.finish = finish) = Option.toList found ∧
          ((s₁.call (.nextFurther h)).1 = .ok (.flows found.toList) ∨
            ∃ queued, s.config.maxCandidates < queued ∧ (s₁.call (.nextFurther h)).1 =
              .error (.allocation (.candidates start finish queued s.config.maxCandidates))) := by
  intro s
  have hfounded : s.Founded := after_founded h₀.founded hmaps
  have hbound : s.config.maxGraphEdges ≤ FlowGraph.edgeBound := by
    rw [config_after]
    exact hlimit
  obtain ⟨p, m, start, hp, hm, hstart, hkind, hroot, hreported⟩ := hissued.reported h₀ ha hv
  refine ⟨p, start, hp, hstart, fun first last finish hfirst hlast hne => ?_⟩
  obtain ⟨s₁, hprepare, hnext⟩ :=
    hfounded.first_path hbound hp hm hv hkind hroot hfirst hlast hne.symm
  refine ⟨s₁, v.graph.lightestFlow? q.direction start finish, hprepare, ?_, hnext⟩
  have hv' : v.Founded s.config := hfounded.flows.of_held (Registry.resolve_eq_ok_iff.mp hv).1
  have hscope := hv'.transitive hkind
  rw [hreported, hfilter, ← hv'.grown.reachResults_eq hv'.index.sound hscope hroot]
  exact FlowGraph.filter_reachResults hv'.grown.sound (hv'.grown.measured hv'.index hbound) p hne

/-- An analysis at `a`, which is continued at `b`. -/
def sampleContinued : List Call :=
  [.loadPermissions .sample] ++ .analyzeReach (sampleQuery "a") :: [.continueFrom ⟨0, 0, 1⟩ "b"]

/-- The first path from `a` to `c` is the flow to `c` that the analysis at `a` has reported. -/
theorem sample_first_path :
    ∃ results s₁ r, ((sample.after [.loadPermissions .sample]).call
        (.analyzeReach (sampleQuery "a"))).1 = .ok (.begun results ⟨0, 0, 1⟩) ∧
      (sample.after sampleContinued).call (.prepareFurther ⟨0, 0, 1⟩ "a" "c") = (.ok .done, s₁) ∧
      results.filter (fun r => r.finish = ⟨"c"⟩) = [r] ∧
      (s₁.call (.nextFurther ⟨0, 0, 1⟩)).1 = .ok (.flows [r]) := by
  have hinit : sample.Initial := ⟨{}, Or.inr ⟨.sample, rfl⟩⟩
  have hmaps : ∀ m, .loadPermissions m ∈ sampleContinued → m.Built := by
    intro m hm
    obtain rfl : m = .sample := by simpa [sampleContinued] using hm
    exact PermissionMap.built_sample
  have hissued : sample.Issued [.loadPermissions .sample] (.analyzeReach (sampleQuery "a"))
      [.continueFrom ⟨0, 0, 1⟩ "b"] ⟨0, 0, 1⟩ (.reach (sampleQuery "a")) :=
    { asks := .reach _
      gives := gives_iff.mpr (by decide +kernel)
      last := by decide +kernel
      epochs := by decide +kernel }
  have hresolves : (resolve (sample.after sampleContinued).registry ⟨0, 0, 1⟩).isOk = true := by
    decide +kernel
  have hpolicy : (sample.after sampleContinued).policy = some .sample := by decide +kernel
  have hnames : Policy.sample.resolve "a" = some ⟨"a"⟩ ∧ Policy.sample.resolve "c" = some ⟨"c"⟩ := by
    decide +kernel
  have hone : (((sample.after sampleContinued).call (.prepareFurther ⟨0, 0, 1⟩ "a" "c")).2.call
      (.nextFurther ⟨0, 0, 1⟩)).1.toOption.map (fun a => a.results.length) = some 1 := by
    decide +kernel
  obtain ⟨a, ha, hh⟩ := hissued.gives
  obtain ⟨v, hv⟩ := exists_ok hresolves
  obtain ⟨p, start, hp, hstart, hpaths⟩ :=
    first_path_reported hinit (by decide) hmaps hissued rfl ha hv
  obtain rfl := Option.some.inj (hpolicy.symm.trans hp)
  obtain rfl := Option.some.inj (hnames.1.symm.trans hstart)
  obtain ⟨s₁, found, hprepare, hreported, hnext⟩ :=
    hpaths "a" "c" ⟨"c"⟩ hnames.1 hnames.2 (by decide)
  obtain ⟨⟨results, h⟩, -, rfl⟩ := map_eq_ok_iff.mp ha
  obtain rfl := Option.some.inj hh
  obtain rfl : ((sample.after sampleContinued).call (.prepareFurther ⟨0, 0, 1⟩ "a" "c")).2 = s₁ :=
    congrArg Prod.snd hprepare
  rcases hnext with hok | ⟨queued, -, herror⟩
  · rw [hok] at hone
    cases found with
    | none => exact nomatch Option.some.inj hone
    | some r => exact ⟨results, _, r, ha, hprepare, hreported, hok⟩
  · rw [herror] at hone
    exact nomatch hone

end Session

end PolicyReach
