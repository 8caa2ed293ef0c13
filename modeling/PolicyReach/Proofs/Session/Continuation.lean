import PolicyReach.Proofs.Flow.Growth
import PolicyReach.Proofs.Flow.Locality
import PolicyReach.Proofs.Session.Epoch
import PolicyReach.Proofs.Session.Reach

/-!
# Continuing gives what a fresh analysis gives

A flow session is asked for the results at other start types, and its graph grows with each. What it
gives then is what an analysis from that start type would give on its own, whatever the graph has been
grown from before, and however its paths have been enumerated in between.

* `FlowSession.Serves`: the flow session holds the flows that a query is about;
* **`Effect.serves`**, `Serves.after`: calls keep what a handle names serving the query it was given
  out for, as long as its epoch lasts;
* `FlowContext.continueFrom_fresh`: such a flow session gives what a fresh analysis gives;
* **`continueFrom_exact`**: so it is over a whole run; and continuing fails only when the graph would
  get too many edges;
* **`outlived`**: after `2 ^ 64` epochs a handle may resolve again, and then it is not so.
-/

namespace PolicyReach

open Registry (resolve own?)

/-! ## Queries for flows -/

/-- A query for flows of one hop or over many. -/
inductive FlowQuery where
  | hops (q : HopQuery)
  | reach (q : ReachQuery)

namespace FlowQuery

/-- The name of the start type. -/
def start : FlowQuery → String
  | hops q => q.start
  | reach q => q.start

def kind : FlowQuery → FlowKind
  | hops q => .hop q.direction
  | reach q => .reach q.direction

def filter : FlowQuery → Option NameFilter
  | hops q => q.filter
  | reach q => q.filter

/-- The query with another start type. -/
def startAt (name : String) : FlowQuery → FlowQuery
  | hops q => hops { q with start := name }
  | reach q => reach { q with start := name }

end FlowQuery

namespace FlowContext

/-- What a query needs to be scanned for. -/
def criteriaOf (c : FlowContext) : FlowQuery → Except AnalysisError Criteria
  | .hops q => .ok { classPerms := q.classPerms, scope := .direct, intermediate := none }
  | .reach q => (c.intermediate q).map q.criteria

/-- Analyse flows. -/
def analyzeFlows (c : FlowContext) (r : FlowRegistry) :
    FlowQuery → Except AnalysisError ((List FlowResult × Handle) × FlowRegistry)
  | .hops q => c.analyzeHops r q
  | .reach q => c.analyzeReach r q

variable {c : FlowContext} {r : FlowRegistry} {q : FlowQuery}

theorem analyzeFlows_eq (c : FlowContext) (r : FlowRegistry) (q : FlowQuery) :
    c.analyzeFlows r q = (do
      let permissions ← c.permissionMap
      let start ← c.typeOf q.start
      let criteria ← c.criteriaOf q
      c.begin r permissions criteria q.kind q.filter start) := by
  cases q with
  | hops q =>
    simp only [analyzeFlows, analyzeHops, criteriaOf, FlowQuery.start, FlowQuery.kind,
      FlowQuery.filter, bind, Except.bind]
  | reach q =>
    refine bind_congr fun m => bind_congr fun start => ?_
    show (c.intermediate q >>= _) = ((c.intermediate q).map q.criteria >>= _)
    cases c.intermediate q <;> rfl

theorem analyzeFlows_eq_ok {r' : FlowRegistry} {results : List FlowResult} {h : Handle}
    (ha : c.analyzeFlows r q = .ok ((results, h), r')) :
    ∃ m criteria start, c.permissions = some m ∧ c.criteriaOf q = .ok criteria ∧
      c.begin r m criteria q.kind q.filter start = .ok ((results, h), r') := by
  rw [analyzeFlows_eq] at ha
  obtain ⟨m, hm, ha⟩ := bind_eq_ok_iff.mp ha
  obtain ⟨start, -, ha⟩ := bind_eq_ok_iff.mp ha
  obtain ⟨criteria, hcriteria, ha⟩ := bind_eq_ok_iff.mp ha
  exact ⟨m, criteria, start, permissionMap_eq_ok_iff.mp hm, hcriteria, ha⟩

theorem criteriaOf_startAt (name : String) : c.criteriaOf (q.startAt name) = c.criteriaOf q := by
  cases q <;> rfl

theorem scope_of_criteriaOf {criteria : Criteria} (h : c.criteriaOf q = .ok criteria) :
    criteria.scope = q.kind.scope := by
  cases q with
  | hops q =>
    obtain rfl := Except.ok.inj h
    rfl
  | reach q =>
    obtain ⟨types, -, rfl⟩ := map_eq_ok_iff.mp h
    rfl

end FlowContext

/-! ## Flow sessions that serve a query -/

/-- A flow session holds the flows of the policy that a query is about, and a graph grown from them. -/
structure FlowSession.Serves (v : FlowSession) (c : FlowContext) (q : FlowQuery) : Prop where
  index : ∃ m criteria, c.permissions = some m ∧ c.criteriaOf q = .ok criteria ∧
    v.index = c.policy.flows m criteria
  kind : v.kind = q.kind
  filter : v.filter = q.filter
  grown : FlowGraph.Grown c.config.maxGraphEdges v.index v.graph

namespace FlowSession.Serves

variable {v v' : FlowSession} {c : FlowContext} {q : FlowQuery}

theorem sound (hv : v.Serves c q) : v.index.Sound := by
  obtain ⟨m, criteria, -, -, hindex⟩ := hv.index
  exact hindex ▸ c.policy.flows_sound m criteria

theorem scope (hv : v.Serves c q) : v.index.criteria.scope = q.kind.scope := by
  obtain ⟨m, criteria, -, hcriteria, hindex⟩ := hv.index
  rw [hindex, Policy.flows_criteria]
  exact FlowContext.scope_of_criteriaOf hcriteria

/-- The results of a graph grown from the index at a root. -/
theorem results_eq (hv : v.Serves c q) {limit : Nat} {g : FlowGraph} {root : TypeName}
    (hg : FlowGraph.Grown limit v.index g) (hroot : root ∈ g.roots) :
    g.results c.policy q.filter q.kind root = v.index.results c.policy q.filter q.kind root := by
  have hscope := hv.scope
  cases hkind : q.kind with
  | hop direction =>
    rw [hkind] at hscope
    exact hg.hopResults_eq hv.sound hscope hroot _ _ direction
  | reach direction =>
    rw [hkind] at hscope
    exact hg.reachResults_eq hv.sound hscope hroot _ _

/-- What a call makes of a flow session goes on to serve the query. -/
theorem step {call : Call} (hv : v.Serves c q) (h : v.Step c.config call v') : v'.Serves c q := by
  have hgrow {root : TypeName} {graph : FlowGraph}
      (hg : v.index.grow c.config.maxGraphEdges v.graph root = .ok graph) :
      FlowGraph.Grown c.config.maxGraphEdges v.index graph :=
    (FlowGraph.grow_grown hv.sound hv.grown hg).1
  cases h with
  | continued grown => exact ⟨hv.index, hv.kind, hv.filter, hgrow grown⟩
  | prepared call kind ends grown => exact ⟨hv.index, hv.kind, hv.filter, hgrow grown⟩
  | taken call under next => exact ⟨hv.index, hv.kind, hv.filter, hv.grown⟩
  | aborted call => exact ⟨hv.index, hv.kind, hv.filter, hv.grown⟩

end FlowSession.Serves

/-! ## Continuing -/

namespace FlowContext

variable {c : FlowContext} {r r' : FlowRegistry} {q : FlowQuery} {h : Handle} {v : FlowSession}
  {name : String} {start : TypeName} {results : List FlowResult}

/-- An analysis registers a flow session that serves its query. -/
theorem serves_of_analyzeFlows (hr : Registry.Sound r)
    (ha : c.analyzeFlows r q = .ok ((results, h), r')) :
    ∃ v, own? r' h = some v ∧ v.Serves c q := by
  obtain ⟨m, criteria, start, hm, hcriteria, hb⟩ := analyzeFlows_eq_ok ha
  obtain ⟨graph, hg, -, hreg⟩ := begin_eq_ok hb
  refine ⟨_, Registry.own?_register_self hr hreg, ⟨m, criteria, hm, hcriteria, rfl⟩, rfl, rfl, ?_⟩
  exact (FlowGraph.grow_grown (c.policy.flows_sound m criteria) (FlowGraph.grown_empty _ _) hg).1

/-- **Where continuing succeeds, a fresh analysis does, and gives the same.** -/
theorem continueFrom_fresh (hr : Registry.Sound r) (hfull : ¬ r.IsFull)
    (hserves : ∀ v, resolve r h = .ok v → v.Serves c q)
    (hc : c.continueFrom r h name = .ok (results, r')) :
    ∃ h' r', c.analyzeFlows r (q.startAt name) = .ok ((results, h'), r') := by
  obtain ⟨v, start, graph, hv, hstart, hgrow, rfl, -⟩ := continueFrom_eq_ok hc
  have hv := hserves v hv
  obtain ⟨m, criteria, hm, hcriteria, hindex⟩ := hv.index
  obtain ⟨hgrown, hroot, -⟩ := FlowGraph.grow_grown hv.sound hv.grown hgrow
  obtain ⟨fresh, hfresh⟩ := hv.grown.selectFrom_ok hv.sound hgrow
  obtain ⟨hgrown', hroot', -⟩ :=
    FlowGraph.grow_grown hv.sound (FlowGraph.grown_empty _ _) hfresh
  have hsame : graph.results c.policy v.filter v.kind start =
      fresh.results c.policy q.filter q.kind start := by
    rw [hv.filter, hv.kind, hv.results_eq hgrown hroot, hv.results_eq hgrown' hroot']
  rw [hindex] at hfresh
  obtain ⟨h', r'', hreg⟩ := Registry.exists_register hr hfull
    ({ index := c.policy.flows m criteria, graph := fresh, kind := q.kind, filter := q.filter } :
      FlowSession)
  have hbegin : c.begin r m criteria q.kind q.filter start =
      .ok ((graph.results c.policy v.filter v.kind start, h'), r'') := by
    unfold begin
    simp only [hfresh, hsame, bind, Except.bind, hreg]
  refine ⟨h', r'', ?_⟩
  have hq : (q.startAt name).start = name ∧ (q.startAt name).kind = q.kind ∧
      (q.startAt name).filter = q.filter := by
    cases q <;> exact ⟨rfl, rfl, rfl⟩
  rw [analyzeFlows_eq, permissionMap_eq_ok_iff.mpr hm, hq.1, typeOf_eq_ok_iff.mpr hstart,
    criteriaOf_startAt, hcriteria, hq.2.1, hq.2.2]
  simp only [bind, Except.bind, hbegin]

/-- Where both names are good, continuing fails only as growing the graph does. -/
theorem continueFrom_error_iff (hv : resolve r h = .ok v) (hserves : v.Serves c q)
    (hstart : c.policy.resolve name = some start) {e : AnalysisError} :
    c.continueFrom r h name = .error e ↔
      v.index.grow c.config.maxGraphEdges v.graph start = .error e := by
  obtain ⟨m, -, hm, -⟩ := hserves.index
  unfold continueFrom
  rw [FlowRegistry.session_eq_ok_iff.mpr hv, permissionMap_eq_ok_iff.mpr hm,
    typeOf_eq_ok_iff.mpr hstart]
  simp only [bind, Except.bind]
  cases v.index.grow c.config.maxGraphEdges v.graph start with
  | error e' => simp only [Except.error.injEq]
  | ok graph => exact ⟨(nomatch ·), (nomatch ·)⟩

end FlowContext

/-! ## Runs -/

/-- The flows that an answer reports with a handle. -/
def Answer.reported : Answer → List FlowResult
  | .begun results _ => results
  | .reachOutput o => o.results
  | _ => []

/-- The call asks for an analysis of flows. -/
inductive Call.Asks : Call → FlowQuery → Prop
  | hops (q : HopQuery) : Asks (.analyzeHops q) (.hops q)
  | reach (q : ReachQuery) : Asks (.analyzeReach q) (.reach q)
  | hopRecord {p : HopParams} {q : HopQuery} (query : p.toQuery = .ok q) : Asks (.runHops p) (.hops q)
  | reachRecord {p : ReachParams} {q : ReachQuery} (query : p.toQuery = .ok q) :
      Asks (.runReach p) (.reach q)

namespace Session

/-- Analyse flows. -/
def analyzeFlows (s : Session) (q : FlowQuery) : SessionOutcome (List FlowResult × Handle) :=
  s.onFlows fun c r => c.analyzeFlows r q

/-- In a run, handle `h` was given out for query `q`, and to no later call; the epochs begun since
then are too few for their count to wrap around. -/
structure Issued (s : Session) (pre : List Call) (c : Call) (later : List Call) (h : Handle)
    (q : FlowQuery) : Prop where
  asks : c.Asks q
  gives : (s.after pre).Gives c h
  last : h ∉ ((s.after pre).call c).2.issued later
  epochs : ((s.after pre).call c).2.invalidations later < 2 ^ 64

/-- What the handle names serves the query, over the policy as it is. -/
structure Serves (s : Session) (h : Handle) (q : FlowQuery) : Prop where
  sound : Registry.Sound s.registry
  flows : ∃ p, s.policy = some p ∧
    ∀ v, own? s.registry h = some v → v.Serves (s.flowContext p) q

variable {s s' : Session} {c : Call} {h : Handle} {q : FlowQuery}

/-- **As long as the epoch lasts, every call keeps what a handle names serving its query**, unless it
gives out the handle anew. -/
theorem Effect.serves (hs : s.Serves h q) (he : Effect s c s') (hepoch : s'.epoch = s.epoch)
    (hnew : ¬ s.Gives c h) : s'.Serves h q := by
  obtain ⟨p, hp, hflows⟩ := hs.flows
  obtain ⟨-, hpolicy, hpermissions⟩ :=
    (he.epoch_cases hs.sound).resolve_left fun hnext => epoch_succ_ne _ (hnext.symm.trans hepoch)
  have hcontext : s'.flowContext p = s.flowContext p := by
    simp only [flowContext, he.config, hpermissions]
  refine ⟨he.sound hs.sound, p, hpolicy.trans hp, fun v' hv' => ?_⟩
  rw [hcontext]
  rcases he.own?_cases hs.sound hv' with hold | ⟨hgives, -⟩ | ⟨v, hv, -, hstep⟩
  · exact hflows v' hold
  · exact absurd hgives hnew
  · exact (hflows v (Registry.resolve_eq_ok_iff_own?.mp hv).1).step hstep

/-- **A run keeps what a handle names serving its query** as long as the epoch lasts. -/
theorem Serves.after {cs : List Call} (hs : s.Serves h q) (hlast : h ∉ s.issued cs)
    (hepoch : s.invalidations cs = 0) : (s.after cs).Serves h q := by
  induction cs generalizing s with
  | nil => exact hs
  | cons c cs ih =>
    rw [issued_cons, List.mem_append, Option.mem_toList, ← gives_iff] at hlast
    obtain ⟨hone, hrest⟩ := Nat.add_eq_zero_iff.mp hepoch
    have hsame : (s.call c).2.epoch = s.epoch := by
      by_contra hne
      exact nomatch (if_neg hne).symm.trans hone
    exact ih ((call_effect s c).serves hs hsame fun hgives => hlast (Or.inl hgives))
      (fun hmem => hlast (Or.inr hmem)) hrest

/-- A call that asks for an analysis of flows answers with what the analysis gives. -/
theorem analyzeFlows_of_answer {a : Answer} (hasks : c.Asks q) (ha : (s.call c).1 = .ok a)
    (hh : a.handle? = some h) :
    ∃ results, (s.analyzeFlows q).1 = .ok (results, h) ∧ (s.call c).2 = (s.analyzeFlows q).2 ∧
      ∀ q', q = .reach q' → a.reported = results := by
  cases hasks with
  | hops q =>
    obtain ⟨⟨results, h'⟩, hx, rfl⟩ := map_eq_ok_iff.mp ha
    obtain rfl := Option.some.inj hh
    exact ⟨results, hx, rfl, nofun⟩
  | reach q =>
    obtain ⟨⟨results, h'⟩, hx, rfl⟩ := map_eq_ok_iff.mp ha
    obtain rfl := Option.some.inj hh
    exact ⟨results, hx, rfl, fun _ _ => rfl⟩
  | @hopRecord p q query =>
    obtain ⟨o, ho, rfl⟩ := map_eq_ok_iff.mp ha
    obtain rfl := Option.some.inj hh
    show ∃ results, _ ∧ (s.runHops p).2 = _ ∧ _
    unfold runHops at ho ⊢
    rw [query] at ho ⊢
    obtain ⟨⟨results, h'⟩, hx, rfl⟩ := map_eq_ok_iff.mp ho
    exact ⟨results, hx, rfl, nofun⟩
  | @reachRecord p q query =>
    obtain ⟨o, ho, rfl⟩ := map_eq_ok_iff.mp ha
    obtain rfl := Option.some.inj hh
    show ∃ results, _ ∧ (s.runReach p).2 = _ ∧ _
    unfold runReach at ho ⊢
    rw [query] at ho ⊢
    obtain ⟨⟨results, h'⟩, hx, rfl⟩ := map_eq_ok_iff.mp ho
    exact ⟨results, hx, rfl, fun _ _ => rfl⟩

/-- A handle that is given out names, at first, what serves its query. -/
theorem serves_of_gives (hs : Registry.Sound s.registry) (hasks : c.Asks q) (hgives : s.Gives c h) :
    (s.call c).2.Serves h q ∧ h.epoch = (s.call c).2.epoch := by
  obtain ⟨a, ha, hh⟩ := hgives
  obtain ⟨results, hresults, hcall, -⟩ := analyzeFlows_of_answer hasks ha hh
  obtain ⟨p, r, hp, hok, hafter⟩ := onFlows_ok hresults
  obtain ⟨v, hv, hserves⟩ := FlowContext.serves_of_analyzeFlows hs hok
  obtain ⟨m, criteria, start, -, -, hb⟩ := FlowContext.analyzeFlows_eq_ok hok
  obtain ⟨graph, -, -, hreg⟩ := FlowContext.begin_eq_ok hb
  obtain ⟨hissue, hepoch, -⟩ := Registry.register_spec hs hreg
  rw [hcall.trans hafter]
  refine ⟨⟨hs.register hreg, p, hp, fun w hw => ?_⟩, hissue.trans hepoch.symm⟩
  obtain rfl := Option.some.inj (hv.symm.trans hw)
  exact hserves

/-- **What a handle names serves the query it was given out for**, wherever it resolves. -/
theorem Issued.serves {s₀ : Session} (h₀ : s₀.Initial) {pre later : List Call}
    (hissued : s₀.Issued pre c later h q) {v : FlowSession}
    (hv : resolve (s₀.after (pre ++ c :: later)).registry h = .ok v) :
    (s₀.after (pre ++ c :: later)).Serves h q := by
  have hsound : Registry.Sound (s₀.after pre).registry := sound_after h₀.current.sound
  obtain ⟨hserves, hissue⟩ := serves_of_gives hsound hissued.asks hissued.gives
  rw [after_append, after_cons] at hv ⊢
  obtain ⟨-, hepoch⟩ := Registry.resolve_eq_ok_iff.mp hv
  exact hserves.after hissued.last
    (invalidations_eq_zero hserves.sound hissued.epochs (hepoch.symm.trans hissue))

/-- **Continuing gives what a fresh analysis gives.** In every state that a run of calls reaches, a
handle that resolves gives at another start type, if it gives anything, what the query that it was given
out for gives there, unless there is no room for another graph. Over names that resolve it fails only
when the edges needed there, with those that the graph has already, are too many, and always then. -/
theorem continueFrom_exact {s₀ : Session} (h₀ : s₀.Initial) {pre later : List Call}
    (hissued : s₀.Issued pre c later h q) {v : FlowSession}
    (hv : resolve (s₀.after (pre ++ c :: later)).registry h = .ok v) :
    let s := s₀.after (pre ++ c :: later)
    (¬ s.registry.IsFull → ∀ name results, (s.continueFrom h name).1 = .ok results →
      ∃ h', (s.analyzeFlows (q.startAt name)).1 = .ok (results, h')) ∧
    ∃ p, s.policy = some p ∧ ∀ name start, p.resolve name = some start →
      ∀ e, (s.continueFrom h name).1 = .error e ↔
        s.config.maxGraphEdges < (v.index.needed v.graph start).card ∧
          e = .allocation
            (.graphEdges (v.index.needed v.graph start).card s.config.maxGraphEdges) := by
  intro s
  obtain ⟨hsound, p, hp, hflows⟩ := hissued.serves h₀ hv
  have hserves (w : FlowSession) (hw : resolve s.registry h = .ok w) :
      w.Serves (s.flowContext p) q := hflows w (Registry.resolve_eq_ok_iff_own?.mp hw).1
  refine ⟨fun hfull name results hr => ?_, p, hp, fun name start hstart e => ?_⟩
  · obtain ⟨r', hc⟩ := onFlows_eq_ok_iff hp |>.mp hr
    obtain ⟨h', r'', ha⟩ := FlowContext.continueFrom_fresh hsound hfull hserves hc
    exact ⟨h', (onFlows_eq_ok_iff hp).mpr ⟨r'', ha⟩⟩
  · have hvs := hserves v hv
    exact ((onFlows_eq_error_iff hp).trans
      (FlowContext.continueFrom_error_iff hv hvs hstart)).trans (hvs.grown.grow_error_iff hvs.sound)

/-- Which types can be reached from a type of `Policy.sample`. -/
def sampleQuery (start : String) : ReachQuery := { direction := .fromStart, start }

/-- An analysis from `c` on is continued from `b` and then from `a` on, where it gives what an analysis
from `a` on gives. -/
theorem sample_continued :
    let s := sample.after ([.loadPermissions .sample] ++ .analyzeReach (sampleQuery "c") ::
      [.continueFrom ⟨0, 0, 1⟩ "b"])
    ∃ results h', (s.continueFrom ⟨0, 0, 1⟩ "a").1 = .ok results ∧
      (s.analyzeFlows (.reach (sampleQuery "a"))).1 = .ok (results, h') := by
  intro s
  have hinit : sample.Initial := ⟨{}, Or.inr ⟨.sample, rfl⟩⟩
  have hissued : sample.Issued [.loadPermissions .sample] (.analyzeReach (sampleQuery "c"))
      [.continueFrom ⟨0, 0, 1⟩ "b"] ⟨0, 0, 1⟩ (.reach (sampleQuery "c")) :=
    { asks := .reach _
      gives := gives_iff.mpr (by decide +kernel)
      last := by decide +kernel
      epochs := by decide +kernel }
  have hresolves : (resolve s.registry ⟨0, 0, 1⟩).isOk = true := by decide +kernel
  have hcontinues : (s.continueFrom ⟨0, 0, 1⟩ "a").1.isOk = true := by decide +kernel
  have hsize : s.registry.slots.size < UInt32.size := by decide +kernel
  obtain ⟨v, hv⟩ := exists_ok hresolves
  obtain ⟨results, hr⟩ := exists_ok hcontinues
  obtain ⟨hfresh, -⟩ := continueFrom_exact hinit hissued hv
  obtain ⟨h', hfresh⟩ := hfresh (fun hfull => absurd hsize (Nat.not_lt.mpr hfull.2)) "a" results hr
  exact ⟨results, h', hr, hfresh⟩

/-! ## Beyond the bound -/

/-- Replace the policy, and then begin a number of epochs. -/
def outdating (p : Policy) (n : Nat) : List Call := .replacePolicy p :: List.replicate n .invalidateAll

theorem outdating_succ (p : Policy) (n : Nat) :
    outdating p (n + 1) = outdating p n ++ [.invalidateAll] := by
  unfold outdating
  rw [List.replicate_succ', List.cons_append]

/-- The epoch advances by as many as are begun, as a word, and what is registered stays. -/
theorem after_outdating (s : Session) (p : Policy) (n : Nat) :
    s.after (outdating p n) =
      { s with
        policy := some p
        registry := { s.registry with epoch := s.epoch + UInt64.ofNat (n + 1) }
        memo := s.memo.cleared } := by
  induction n with
  | zero => rfl
  | succ n ih =>
    have hcleared : s.memo.cleared.cleared = s.memo.cleared := by
      unfold GrantMemo.cleared
      cases s.memo.cache <;> rfl
    have hepoch : s.epoch + UInt64.ofNat (n + 1 + 1) = s.epoch + UInt64.ofNat (n + 1) + 1 := by
      rw [UInt64.ofNat_add (n + 1) 1, ← UInt64.add_assoc]
      rfl
    rw [outdating_succ, after_append, ih, after_cons, after_nil, hepoch]
    exact congrArg (fun memo : GrantMemo => ({ s with
      policy := some p
      registry := { s.registry with epoch := s.epoch + UInt64.ofNat (n + 1) + 1 }
      memo } : Session)) hcleared

theorem issued_outdating (s : Session) (p : Policy) (n : Nat) : s.issued (outdating p n) = [] := by
  induction n with
  | zero => rfl
  | succ n ih =>
    unfold issued at ih ⊢
    rw [outdating_succ, outcomes_append, List.filterMap_append, ih]
    rfl

theorem invalidations_outdating (s : Session) (p : Policy) (n : Nat) :
    s.invalidations (outdating p n) = n + 1 := by
  have hone (t : Session) (c : Call) (hc : (t.call c).2.epoch = t.epoch + 1) :
      t.invalidations [c] = 1 := by
    rw [invalidations, if_neg (hc ▸ epoch_succ_ne _), invalidations]
  induction n with
  | zero => exact hone s (.replacePolicy p) rfl
  | succ n ih => rw [outdating_succ, invalidations_append, ih, hone _ .invalidateAll rfl]

/-- The types of `Policy.sample`, without any rule. -/
def sampleRuleless : Policy := ((Policy.empty.addType "a").addType "b").addType "c"

/-- A session over `Policy.sample`, with the permission map loaded. -/
def sampleReady : Session := sample.after [.loadPermissions .sample]

/-- Once the count of epochs has come round to what it was when the flows from `c` were asked for, the
handle resolves again. It gives flows at `a`, where an analysis of the policy as it is then gives none. -/
theorem resolves_once_more {n : Nat} (hround : UInt64.ofNat (n + 1) = 0) :
    let c : Call := .analyzeReach (sampleQuery "c")
    let s := sample.after ([.loadPermissions .sample] ++ c :: outdating sampleRuleless n)
    (∃ v, resolve s.registry ⟨0, 0, 1⟩ = .ok v) ∧ ¬ s.registry.IsFull ∧
      ∃ results, (s.continueFrom ⟨0, 0, 1⟩ "a").1 = .ok results ∧ results ≠ [] ∧
        ∃ h', (s.analyzeFlows (FlowQuery.startAt "a" (.reach (sampleQuery "c")))).1 = .ok ([], h') := by
  intro c s
  let analyzed := (sampleReady.call c).2
  let outdated : Session := { analyzed with
    policy := some sampleRuleless
    registry := { analyzed.registry with epoch := analyzed.epoch + 0 }
    memo := analyzed.memo.cleared }
  have hs : s = outdated := by
    show analyzed.after (outdating sampleRuleless n) = _
    rw [after_outdating, hround]
  have hresolves : (resolve outdated.registry ⟨0, 0, 1⟩).isOk = true := by decide +kernel
  have hfull : ¬ UInt32.size ≤ outdated.registry.slots.size := by decide +kernel
  have hcontinues : (outdated.continueFrom ⟨0, 0, 1⟩ "a").1.toOption.any (· ≠ []) = true := by
    decide +kernel
  have hfresh : (outdated.analyzeFlows (.reach (sampleQuery "a"))).1.toOption.any (·.1 = []) = true := by
    decide +kernel
  obtain ⟨v, hv⟩ := exists_ok hresolves
  obtain ⟨results, hresults, hsome⟩ := exists_ok_of_any hcontinues
  obtain ⟨⟨fresh, h'⟩, hfresh, hnone⟩ := exists_ok_of_any hfresh
  obtain rfl : fresh = [] := of_decide_eq_true hnone
  rw [hs]
  exact ⟨⟨v, hv⟩, fun h => hfull h.2, results, hresults, of_decide_eq_true hsome, h', hfresh⟩

/-- **A handle may outlive the policy that it was given out under.** After an analysis from `c` on the
policy is replaced, and as many epochs are begun as there are words. -/
theorem outlived :
    let c : Call := .analyzeReach (sampleQuery "c")
    let later := outdating sampleRuleless (2 ^ 64 - 1)
    let s := sample.after ([.loadPermissions .sample] ++ c :: later)
    sample.Initial ∧ c.Asks (.reach (sampleQuery "c")) ∧ sampleReady.Gives c ⟨0, 0, 1⟩ ∧
      ⟨0, 0, 1⟩ ∉ (sampleReady.call c).2.issued later ∧
      (sampleReady.call c).2.invalidations later = 2 ^ 64 ∧
      (∃ v, resolve s.registry ⟨0, 0, 1⟩ = .ok v) ∧ ¬ s.registry.IsFull ∧
      ∃ results, (s.continueFrom ⟨0, 0, 1⟩ "a").1 = .ok results ∧ results ≠ [] ∧
        ∃ h', (s.analyzeFlows (FlowQuery.startAt "a" (.reach (sampleQuery "c")))).1 = .ok ([], h') := by
  have hgives : sampleReady.Gives (.analyzeReach (sampleQuery "c")) ⟨0, 0, 1⟩ :=
    gives_iff.mpr (by decide +kernel)
  refine ⟨⟨{}, Or.inr ⟨.sample, rfl⟩⟩, .reach _, hgives, ?_, ?_, resolves_once_more (by decide)⟩
  · rw [issued_outdating]
    exact List.not_mem_nil
  · rw [invalidations_outdating]
    exact Nat.sub_add_cancel Nat.one_le_two_pow

end Session

end PolicyReach
