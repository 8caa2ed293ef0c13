import Mathlib.Data.List.Induction
import PolicyReach.Proofs.DomainTransition.Exact
import PolicyReach.Proofs.Flow.Known
import PolicyReach.Proofs.Relabel.ObjectModes
import PolicyReach.Proofs.Session.Founded
import PolicyReach.Proofs.Session.Policies

/-!
# Sessions speak of declared types only

Names come into a session through its policy: what a caller types is resolved, what a rule says is expanded.
Over policies that the builders have put together, nothing else comes out.

* `Answer.Within`: the policy knows all types in the results of an answer, and the weights of steps are in
  range;
* `Declared.within_transitions`, `Declared.knows_relabel`: the analyses that look at rules alone;
* `FlowSession.Within`: the policy knows all types of both graphs and of the enumeration, and the weights are
  in range;
* **`Governed.call`**: one call, in terms of what holds of the flow sessions of each epoch (`P`); those of the
  present one are within the policy;
* `Supplied`, `governed_after`: over policies and permission maps that have been put together, each flow
  session is within a policy that the run has had in its epoch (`Dated`);
* **`only_known_types`**: a whole run.

Handles, references of rules and the policy given back by `replacePolicy` are no results.
-/

namespace PolicyReach

open Registry (resolve)

/-! ## Answers -/

/-- The policy knows both types of the flat record of a flow. -/
structure HopRecord.Within (p : Policy) (r : HopRecord) : Prop where
  start : p.Knows r.start
  finish : p.Knows r.finish

/-- The policy knows the types of the domain transition. -/
structure DomainTransition.Within (p : Policy) (d : DomainTransition) : Prop where
  source : p.Knows d.source
  target : p.Knows d.target
  entrypoint : p.Knows d.entrypoint

/-- The policy knows all types in the results of the answer, and the weights of steps are in range. -/
def Answer.Within (p : Policy) : Answer → Prop
  | .begun results _ | .flows results => ∀ r ∈ results, r.Within p
  | .hopOutput o => ∀ r ∈ o.results, r.Within p
  | .reachOutput o => ∀ r ∈ o.results, r.Within p
  | .transitions results => ∀ d ∈ results, d.Within p
  | .transitionOutput o => ∀ d ∈ o.results, d.Within p
  | .relabel results => ∀ r ∈ results, p.Knows r.subject
  | .relabelOutput o => ∀ r ∈ o.results, p.Knows r.subject
  | .done | .flag _ | .count _ | .epoch _ | .previous _ => True

/-! ## Analyses of rules -/

namespace Policy

variable {p : Policy}

/-- Both types between which a rule allows something are declared. -/
theorem Declared.knows_allowed (hp : p.Declared) {cls perm : String} {s t : TypeName} {id : RuleId}
    (h : p.Allows cls perm s t id) : p.Knows s ∧ p.Knows t := by
  obtain ⟨r, -, -, -, hcovers, -⟩ := h
  exact hp.knows_covered hcovers

/-- **Domain transitions are between declared types**, through declared entrypoints. -/
theorem Declared.within_transitions (hp : p.Declared) {q : TransitionQuery} {ds : List DomainTransition}
    (h : p.transitions q = .ok ds) : ∀ d ∈ ds, d.Within p := by
  unfold transitions at h
  cases hstart : p.resolve q.start with
  | none =>
    rw [hstart] at h
    exact nomatch h
  | some start =>
    rw [hstart] at h
    obtain ⟨access, haccess, rfl⟩ := map_eq_ok_iff.mp h
    intro d hd
    obtain ⟨⟨found, transition⟩, hentry, hd⟩ := List.mem_flatMap.mp hd
    obtain ⟨-, hpair⟩ := (mem_foundTransitions haccess).mp hd
    obtain ⟨hsource, htarget, r, hr, -⟩ := mem_pairTransitions.mp hpair
    obtain ⟨hlisted, -⟩ := p.grants_exact ⟨GrantMemo.startSide q.direction, start, "process", "transition"⟩
      found
    obtain ⟨id, hid⟩ := hlisted.mp ⟨transition, OrdMap.get?_eq_some_iff.mpr hentry⟩
    have hends := hp.knows_allowed (q.direction.allowsKey_start.mp hid)
    have hentrypoint : p.Knows d.entrypoint := by
      rcases (p.entryRules_exact _ _ _).1.mp ⟨r, hr⟩ with ⟨⟨id, hid⟩, -⟩ | ⟨⟨id, hid⟩, -⟩
      · exact (hp.knows_allowed hid).2
      · exact (hp.knows_allowed hid).2
    exact ⟨hsource ▸ hends.1, htarget ▸ hends.2, hentrypoint⟩

/-- **The subjects that relabel are declared.** -/
theorem Declared.knows_relabel (hp : p.Declared) {q : RelabelQuery} {results : List RelabelResult}
    (h : p.analyzeRelabel q = .ok results) : ∀ r ∈ results, p.Knows r.subject := by
  intro x hx
  by_cases hmode : q.mode = .subject
  · unfold analyzeRelabel at h
    cases hstart : p.resolve q.start with
    | none =>
      rw [hstart] at h
      exact nomatch h
    | some start =>
      simp only [hstart, if_pos hmode] at h
      obtain rfl := Except.ok.inj h
      obtain rfl := List.mem_singleton.mp hx
      exact hp.knows_resolved hstart
  · obtain ⟨o, -, hresults⟩ := (analyzeRelabel_eq_ok_iff hmode).mp h
    obtain ⟨-, w, -, id, r, -, -, -, hcovers, -⟩ := (exists_result_iff hresults x.subject).mp ⟨x, hx, rfl⟩
    exact (hp.knows_covered hcovers).1

end Policy

/-! ## Flow sessions -/

/-- The policy knows all types of the graphs and the ends of the enumeration, and the weights are in range. -/
structure FlowSession.Within (p : Policy) (v : FlowSession) : Prop where
  index : v.index.Within p
  graph : v.graph.Within p
  enumeration : ∀ e, v.enumeration = some e → e.Within p

theorem FlowSession.Within.congr {p p' : Policy} (h : p.types = p'.types) {v : FlowSession}
    (hv : v.Within p) : v.Within p' where
  index := hv.index.congr h
  graph := hv.graph.congr h
  enumeration e he :=
    { hv.enumeration e he with
      start := (Policy.knows_congr h).mp (hv.enumeration e he).start
      finish := (Policy.knows_congr h).mp (hv.enumeration e he).finish }

namespace Session

/-- The policy declares what its names stand for, and every flow session has a property, which for those of
the present epoch means that they are within the policy. -/
structure Governed (s : Session) (P : Entry FlowSession → Prop) : Prop where
  declared : ∀ p, s.policy = some p → p.Declared
  permissions : ∀ m, s.permissions = some m → m.Built
  sound : Registry.Sound s.registry
  all : Registry.All P s.registry
  now : ∀ p, s.policy = some p → ∀ v, P { epoch := s.epoch, value := v } ↔ v.Within p

/-- What an outcome gives is within the policy, and every flow session after it has a property. -/
structure Yields {α : Type} (s : Session) (P : Entry FlowSession → Prop)
    (Q : Policy → α → Prop) (o : SessionOutcome α) : Prop where
  within : ∀ p a, s.policy = some p → o.1 = .ok a → Q p a
  all : Registry.All P o.2.registry

variable {s : Session} {P : Entry FlowSession → Prop}

section Outcomes

variable {α β : Type} {Q : Policy → α → Prop} {o : SessionOutcome α}

theorem Governed.error (hs : s.Governed P) (e : AnalysisError) : s.Yields P Q (.error e, s) :=
  ⟨nofun, hs.all⟩

theorem Yields.map (ho : s.Yields P Q o) {Q' : Policy → β → Prop} {f : α → β}
    (hf : ∀ p a, Q p a → Q' p (f a)) : s.Yields P Q' (o.1.map f, o.2) := by
  refine ⟨fun p b hp hb => ?_, ho.all⟩
  obtain ⟨a, ha, rfl⟩ := map_eq_ok_iff.mp hb
  exact hf p a (ho.within p a hp ha)

theorem Governed.onFlows (hs : s.Governed P)
    {op : FlowContext → FlowRegistry → Except AnalysisError (α × FlowRegistry)}
    (hop : ∀ p a r, s.policy = some p → op (s.flowContext p) s.registry = .ok (a, r) →
      Q p a ∧ Registry.All P r) : s.Yields P Q (s.onFlows op) := by
  rcases onFlows_cases (s := s) op with ⟨e, h⟩ | ⟨p, a, r, hp, hok, h⟩
  · rw [h]
    exact hs.error e
  · obtain ⟨hwithin, hall⟩ := hop p a r hp hok
    rw [h]
    refine ⟨fun p' b hp' hb => ?_, hall⟩
    obtain rfl := Option.some.inj (hp.symm.trans hp')
    obtain rfl := Except.ok.inj hb
    exact hwithin

theorem Governed.onToken (hs : s.Governed P) {token : String} {op : Handle → SessionOutcome α}
    (hop : ∀ h, s.Yields P Q (op h)) : s.Yields P Q (s.onToken token op) := by
  unfold Session.onToken
  split
  · exact hop _
  · exact hs.error _

end Outcomes

/-! ## One operation on the flow sessions -/

theorem Governed.within (hs : s.Governed P) {p : Policy} (hp : s.policy = some p) {h : Handle}
    {v : FlowSession} (hv : resolve s.registry h = .ok v) : v.Within p := by
  obtain ⟨hheld, -⟩ := Registry.resolve_eq_ok_iff.mp hv
  exact (hs.now p hp v).mp (hs.all.of_held hheld)

theorem Governed.replace (hs : s.Governed P) {p : Policy} (hp : s.policy = some p) {h : Handle}
    {v w : FlowSession} (hv : resolve s.registry h = .ok v) (hw : w.Within p) :
    Registry.All P (Registry.replace s.registry h w) := by
  obtain ⟨hheld, -⟩ := Registry.resolve_eq_ok_iff.mp hv
  exact hs.all.replace hheld ((hs.now p hp w).mpr hw)

theorem Governed.begin (hs : s.Governed P) {p : Policy} (hp : s.policy = some p) {m : PermissionMap}
    (hm : s.permissions = some m) {criteria : Criteria} {kind : FlowKind} {filter : Option NameFilter}
    {name : String} {start : TypeName} (hstart : p.resolve name = some start)
    {x : List FlowResult × Handle} {r : FlowRegistry}
    (hb : (s.flowContext p).begin s.registry m criteria kind filter start = .ok (x, r)) :
    (∀ f ∈ x.1, f.Within p) ∧ Registry.All P r := by
  obtain ⟨results, h⟩ := x
  obtain ⟨graph, hselect, rfl, hreg⟩ := FlowContext.begin_eq_ok hb
  have hdeclared := hs.declared p hp
  have hknown := hdeclared.knows_resolved hstart
  have hindex := Policy.flows_within hdeclared (hs.permissions m hm) criteria
  have hgraph : graph.Within p := hindex.grow (FlowGraph.within_empty p _) hknown hselect
  have hall := hs.all.register hs.sound hreg ((hs.now p hp _).mpr ⟨hindex, hgraph, nofun⟩)
  exact ⟨fun f hf => hgraph.results hknown hf, hall⟩

theorem Governed.analyzeHops (hs : s.Governed P) (q : HopQuery) :
    s.Yields P (fun p x => ∀ f ∈ x.1, f.Within p) (s.analyzeHops q) := by
  refine hs.onFlows fun p a r hp hok => ?_
  obtain ⟨m, start, hm, hstart, hb⟩ := FlowContext.analyzeHops_eq_ok hok
  exact hs.begin hp hm hstart hb

theorem Governed.analyzeReach (hs : s.Governed P) (q : ReachQuery) :
    s.Yields P (fun p x => ∀ f ∈ x.1, f.Within p) (s.analyzeReach q) := by
  refine hs.onFlows fun p a r hp hok => ?_
  obtain ⟨m, start, types, hm, hstart, -, hb⟩ := FlowContext.analyzeReach_eq_ok hok
  exact hs.begin hp hm hstart hb

theorem Governed.continueFrom (hs : s.Governed P) (h : Handle) (name : String) :
    s.Yields P (fun p results => ∀ f ∈ results, f.Within p) (s.continueFrom h name) := by
  refine hs.onFlows fun p a r hp hok => ?_
  obtain ⟨v, start, graph, hv, hstart, hgrow, rfl, rfl⟩ := FlowContext.continueFrom_eq_ok hok
  have hwithin := hs.within hp hv
  have hknown := (hs.declared p hp).knows_resolved hstart
  have hgraph := hwithin.index.grow hwithin.graph hknown hgrow
  exact ⟨fun f hf => hgraph.results hknown hf, hs.replace hp hv { hwithin with graph := hgraph }⟩

theorem Governed.prepareFurther (hs : s.Governed P) (h : Handle) (first last : String) :
    s.Yields P (fun _ _ => True) (s.prepareFurther h first last) := by
  refine hs.onFlows fun p a r hp hok => ?_
  obtain ⟨v, direction, start, finish, graph, hv, -, hstart, hfinish, -, hgrow, rfl⟩ :=
    FlowContext.prepareFurther_eq_ok hok
  have hwithin := hs.within hp hv
  have hstart := (hs.declared p hp).knows_resolved hstart
  have hfinish := (hs.declared p hp).knows_resolved hfinish
  refine ⟨trivial, hs.replace hp hv ⟨hwithin.index, hwithin.index.grow hwithin.graph hstart hgrow, ?_⟩⟩
  intro e he
  obtain rfl := Option.some.inj he
  exact PathEnumeration.within_prepare graph hstart hfinish _ _

theorem Governed.nextFurther (hs : s.Governed P) (h : Handle) :
    s.Yields P (fun p results => ∀ f ∈ results, f.Within p) (s.nextFurther h) := by
  refine hs.onFlows fun p a r hp hok => ?_
  obtain ⟨v, e, hv, hunder, ⟨-, rfl, rfl⟩ | ⟨path, e', hnext, rfl, rfl⟩⟩ :=
    FlowRegistry.nextFurther_eq_ok hok
  · exact ⟨nofun, hs.all⟩
  · have hwithin := hs.within hp hv
    have he := hwithin.enumeration e hunder
    obtain ⟨he', hstart, hlast⟩ := he.next hnext
    refine ⟨fun f hf => ?_, hs.replace hp hv
      { hwithin with enumeration := fun x hx => Option.some.inj hx ▸ he' }⟩
    rw [Option.mem_toList, hstart] at hf
    exact hwithin.graph.walkResult he.start hlast he.finish hf

theorem Governed.abortFurther (hs : s.Governed P) (h : Handle) :
    s.Yields P (fun _ _ => True) (s.abortFurther h) := by
  refine hs.onFlows fun p a r hp hok => ?_
  obtain ⟨v, hv, rfl⟩ := FlowRegistry.abortFurther_eq_ok hok
  exact ⟨trivial, hs.replace hp hv { hs.within hp hv with enumeration := nofun }⟩

theorem Governed.destroy (hs : s.Governed P) (h : Handle) : s.Yields P (fun _ _ => True) (s.destroy h) := by
  refine hs.onFlows fun p a r hp hok => ?_
  obtain ⟨v, hv⟩ := FlowRegistry.discard_eq_ok hok
  exact ⟨trivial, hs.all.destroy hv⟩

/-! ## One call -/

theorem Governed.analyzeTransitions (hs : s.Governed P) (q : TransitionQuery) :
    s.Yields P (fun p results => ∀ d ∈ results, d.Within p) (s.analyzeTransitions q) := by
  unfold Session.analyzeTransitions
  cases hp : s.policy with
  | none => exact hs.error _
  | some p =>
    refine ⟨fun p' ds hp' hds => ?_, hs.all⟩
    obtain rfl := Option.some.inj (hp.symm.trans hp')
    have hfound : p.transitions q = .ok ds := (GrantMemo.analyze_eq s.memo p q).symm.trans hds
    exact (hs.declared p hp).within_transitions hfound

theorem Governed.analyzeRelabel (hs : s.Governed P) (q : RelabelQuery) :
    s.Yields P (fun p results => ∀ r ∈ results, p.Knows r.subject) (s.analyzeRelabel q, s) := by
  refine ⟨fun p results hp hresults => ?_, hs.all⟩
  unfold Session.analyzeRelabel at hresults
  rw [hp] at hresults
  exact (hs.declared p hp).knows_relabel hresults

theorem Governed.runHops (hs : s.Governed P) (params : HopParams) :
    s.Yields P (fun p o => ∀ r ∈ o.results, r.Within p) (s.runHops params) := by
  unfold Session.runHops
  split
  · exact hs.error _
  · refine (hs.analyzeHops _).map fun p x hx record hrecord => ?_
    obtain ⟨r, hr, rfl⟩ := List.mem_map.mp hrecord
    exact ⟨(hx r hr).start, (hx r hr).finish⟩

theorem Governed.runReach (hs : s.Governed P) (params : ReachParams) :
    s.Yields P (fun p o => ∀ r ∈ o.results, r.Within p) (s.runReach params) := by
  unfold Session.runReach
  split
  · exact hs.error _
  · exact (hs.analyzeReach _).map fun _ _ => id

theorem Governed.runTransitions (hs : s.Governed P) (params : TransitionParams) :
    s.Yields P (fun p o => ∀ d ∈ o.results, d.Within p) (s.runTransitions params) := by
  unfold Session.runTransitions
  split
  · exact hs.error _
  · exact (hs.analyzeTransitions _).map fun _ _ => id

theorem Governed.runRelabel (hs : s.Governed P) (params : RelabelParams) :
    s.Yields P (fun p o => ∀ r ∈ o.results, p.Knows r.subject) (s.runRelabel params, s) := by
  unfold Session.runRelabel
  split
  · exact hs.error _
  · exact (hs.analyzeRelabel _).map fun _ _ => id

theorem Governed.loadPolicy (hs : s.Governed P) (file : TextFile) :
    s.Yields P (fun _ _ => True) (s.loadPolicy file) := by
  unfold Session.loadPolicy
  split
  · exact ⟨fun _ _ _ _ => trivial, hs.all⟩
  · exact hs.error _

theorem Governed.loadPermissions (hs : s.Governed P) (m : PermissionMap) :
    Registry.All P (s.loadPermissions m).2.registry := by
  unfold Session.loadPermissions
  dsimp only
  split
  · exact hs.all
  · exact hs.all

theorem Governed.loadPermissionsFile (hs : s.Governed P) (file : TextFile) :
    s.Yields P (fun _ _ => True) (s.loadPermissionsFile file) := by
  unfold Session.loadPermissionsFile
  split
  · exact ⟨fun _ _ _ _ => trivial, hs.loadPermissions _⟩
  · exact hs.error _

theorem Governed.setBoolean (hs : s.Governed P) (name : String) (value : Bool) :
    s.Yields P (fun _ _ => True) (s.setBoolean name value) := by
  unfold Session.setBoolean
  split
  · exact hs.error _
  · split
    · exact hs.error _
    · split
      · exact ⟨fun _ _ _ _ => trivial, hs.all⟩
      · exact ⟨fun _ _ _ _ => trivial, hs.all⟩

/-- **What any call answers is within the policy**, and the flow sessions keep their property. -/
theorem Governed.call (hs : s.Governed P) (c : Call) : s.Yields P Answer.Within (s.call c) := by
  cases c with
  | replacePolicy p => exact ⟨fun _ _ _ ha => Except.ok.inj ha ▸ trivial, hs.all⟩
  | loadPolicy file => exact (hs.loadPolicy file).map fun _ _ => id
  | loadPermissions m => exact ⟨fun _ _ _ ha => Except.ok.inj ha ▸ trivial, hs.loadPermissions m⟩
  | loadPermissionsFile file => exact (hs.loadPermissionsFile file).map fun _ _ => id
  | setBoolean name value => exact (hs.setBoolean name value).map fun _ _ => id
  | invalidateAll => exact ⟨fun _ _ _ ha => Except.ok.inj ha ▸ trivial, hs.all⟩
  | purgeStale => exact ⟨fun _ _ _ ha => Except.ok.inj ha ▸ trivial, hs.all.purgeStale⟩
  | analyzeHops q => exact (hs.analyzeHops q).map fun _ _ => id
  | analyzeReach q => exact (hs.analyzeReach q).map fun _ _ => id
  | continueFrom h start => exact (hs.continueFrom h start).map fun _ _ => id
  | prepareFurther h first last => exact (hs.prepareFurther h first last).map fun _ _ => id
  | nextFurther h => exact (hs.nextFurther h).map fun _ _ => id
  | abortFurther h => exact (hs.abortFurther h).map fun _ _ => id
  | destroy h => exact (hs.destroy h).map fun _ _ => id
  | continueToken token start =>
    exact (hs.onToken fun h => hs.continueFrom h start).map fun _ _ => id
  | destroyToken token => exact (hs.onToken hs.destroy).map fun _ _ => id
  | analyzeTransitions q => exact (hs.analyzeTransitions q).map fun _ _ => id
  | analyzeRelabel q => exact (hs.analyzeRelabel q).map fun _ _ => id
  | runHops params => exact (hs.runHops params).map fun _ _ => id
  | runReach params => exact (hs.runReach params).map fun _ _ => id
  | runTransitions params => exact (hs.runTransitions params).map fun _ _ => id
  | runRelabel params => exact (hs.runRelabel params).map fun _ _ => id

end Session

/-! ## Runs -/

namespace Session

/-- The run is of a session as it begins; all policies that it is given have been put together, and all
permission maps. -/
structure Supplied (s₀ : Session) (cs : List Call) : Prop where
  initial : s₀.Initial
  first : ∀ p, s₀.policy = some p → p.Assembled
  policies : ∀ p, .replacePolicy p ∈ cs → p.Assembled
  maps : ∀ m, .loadPermissions m ∈ cs → m.Built

/-- The flow session is within a policy that the run has had in its epoch. -/
def Dated (s₀ : Session) (cs : List Call) (e : Entry FlowSession) : Prop :=
  ∃ ds, ds <+: cs ∧ (s₀.after ds).epoch = e.epoch ∧
    ∃ p, (s₀.after ds).policy = some p ∧ e.value.Within p

variable {s₀ : Session} {cs ds : List Call}

theorem Initial.registry (h : s₀.Initial) : s₀.registry = .empty := by
  obtain ⟨config, rfl | ⟨p, rfl⟩⟩ := h
  · rfl
  · rfl

theorem Supplied.before (hrun : s₀.Supplied cs) (hds : ds <+: cs) : s₀.Supplied ds where
  initial := hrun.initial
  first := hrun.first
  policies p hp := hrun.policies p (hds.subset hp)
  maps m hm := hrun.maps m (hds.subset hm)

/-- In the present epoch, a flow session is within a policy of its epoch if it is within the present one. -/
theorem Supplied.governed (hrun : s₀.Supplied cs) (hsteady : s₀.Steady cs) (hds : ds <+: cs)
    (hall : Registry.All (s₀.Dated cs) (s₀.after ds).registry) : (s₀.after ds).Governed (s₀.Dated cs) := by
  have hbefore := hrun.before hds
  have hfounded := after_founded hbefore.initial.founded hbefore.maps
  refine ⟨fun p hp => ?_, hfounded.permissions, hfounded.sound, hall, fun p hp v => ⟨?_, fun hv => ?_⟩⟩
  · exact (assembled_after hbefore.first hbefore.policies p hp).declared
  · rintro ⟨es, hes, hepoch, p', hp', hv⟩
    exact hv.congr (hsteady es ds hes hds hepoch p' p hp' hp)
  · exact ⟨ds, hds, rfl, p, hp, hv⟩

/-- **At every moment of a run, each flow session is within a policy of its epoch.** -/
theorem Supplied.governed_after (hrun : s₀.Supplied cs) (hsteady : s₀.Steady cs) (hds : ds <+: cs) :
    (s₀.after ds).Governed (s₀.Dated cs) := by
  refine hrun.governed hsteady hds ?_
  induction ds using List.reverseRecOn with
  | nil =>
    rw [after_nil, hrun.initial.registry]
    exact Registry.all_empty _
  | append_singleton ds c ih =>
    have hprefix : ds <+: cs := (List.prefix_append ds [c]).trans hds
    rw [after_append, after_cons, after_nil]
    exact ((hrun.governed hsteady hprefix (ih hprefix)).call c).all

/-- **Only declared types come out.** In every state that a run of calls reaches, over policies that the
builders have put together or that are read from fixtures, all that any call answers is about types that the
policy declares and that resolve to themselves; so are the nodes, the roots and the ends of edges of both
graphs of every flow session that a handle names, and the weights of the edges are in range. Flow sessions of
earlier epochs are within the policy of their time, which declares the same types if the policy has not been
replaced. The epoch must not wrap around unless the policy is never replaced. -/
theorem only_known_types (hrun : s₀.Supplied cs)
    (hepochs : (∀ c ∈ cs, ∀ p, ¬ c.Replaces p) ∨ s₀.invalidations cs < 2 ^ 64) :
    let s := s₀.after cs
    (s.registry.All fun e => ∃ ds, ds <+: cs ∧ (s₀.after ds).epoch = e.epoch ∧
      ∃ p, (s₀.after ds).policy = some p ∧ e.value.Within p) ∧
    ∀ p, s.policy = some p →
      ((∀ c ∈ cs, ∀ p, ¬ c.Replaces p) → s.registry.All fun e => e.value.Within p) ∧
      (∀ h v, resolve s.registry h = .ok v → v.Within p) ∧
      ∀ c a, (s.call c).1 = .ok a → a.Within p := by
  intro s
  have hsteady : s₀.Steady cs := by
    rcases hepochs with hkept | hfew
    · exact steady_of_kept hkept
    · exact steady_of_few hrun.initial.current.sound hfew
  have hs : s.Governed (s₀.Dated cs) := hrun.governed_after hsteady (List.prefix_refl cs)
  refine ⟨hs.all, fun p hp => ⟨fun hkept i x e hx he => ?_, fun h v hv => hs.within hp hv, ?_⟩⟩
  · obtain ⟨ds, hds, -, p', hp', hv⟩ := hs.all i x e hx he
    exact hv.congr (types_eq_of_kept hkept hds (List.prefix_refl cs) hp' hp)
  · exact fun c a ha => (hs.call c).within p a hp ha

/-- A run in which `Policy.sample` is replaced by a policy with another name for `c`, which a rule uses. -/
def sampleReplaced : List Call :=
  [.loadPermissions .sample, .analyzeHops { direction := .outward, start := "a" },
    .replacePolicy ((Policy.sample.addAlias "c" "d").addAccessRule .allow "b" "d" "file" ["append"] none).2]

theorem supplied_sampleReplaced : sample.Supplied sampleReplaced := by
  have hsample : Policy.sample.Assembled :=
    ((((((Policy.Assembled.empty.addType "a").addType "b").addType "c").addBoolean "net" true).addAccessRule
      .allow "a" "b" "file" ["write"] none).addAccessRule .allow "b" "c" "file" ["write"] none).addAccessRule
      .allow "a" "c" "file" ["append"] (some ⟨"net", true⟩)
  refine ⟨⟨{}, Or.inr ⟨.sample, rfl⟩⟩, fun p hp => Option.some.inj hp ▸ hsample, fun p hp => ?_, fun m hm => ?_⟩
  · simp only [sampleReplaced, List.mem_cons, reduceCtorEq, Call.replacePolicy.injEq, List.not_mem_nil,
      false_or, or_false] at hp
    exact hp ▸ (hsample.addAlias "c" "d").addAccessRule .allow "b" "d" "file" ["append"] none
  · simp only [sampleReplaced, List.mem_cons, reduceCtorEq, Call.loadPermissions.injEq, List.not_mem_nil,
      or_false] at hm
    exact hm ▸ PermissionMap.built_sample

/-- Asked by the other name for what reaches it, the analysis answers with the name that is declared. -/
theorem sample_reached_known :
    ∃ p results h, (sample.after sampleReplaced).policy = some p ∧
      ((sample.after sampleReplaced).call (.analyzeReach { direction := .toStart, start := "d" })).1 =
        .ok (.begun results h) ∧
      results.map (fun r => (r.start, r.finish)) = [(⟨"c"⟩, ⟨"a"⟩), (⟨"c"⟩, ⟨"b"⟩)] ∧
      ∀ r ∈ results, r.Within p := by
  have hanswer : (match ((sample.after sampleReplaced).call
        (.analyzeReach { direction := .toStart, start := "d" })).1 with
      | .ok (.begun results _) => results.map fun r => (r.start, r.finish)
      | _ => []) = [((⟨"c"⟩ : TypeName), (⟨"a"⟩ : TypeName)), (⟨"c"⟩, ⟨"b"⟩)] := by
    decide +kernel
  have hfew : sample.invalidations sampleReplaced < 2 ^ 64 := by decide +kernel
  obtain ⟨p, hp⟩ : ∃ p, (sample.after sampleReplaced).policy = some p := ⟨_, rfl⟩
  obtain ⟨-, hknown⟩ := only_known_types supplied_sampleReplaced (Or.inr hfew)
  split at hanswer
  · rename_i results h hok
    exact ⟨p, results, h, hp, hok, hanswer, (hknown p hp).2.2 _ _ hok⟩
  · exact nomatch hanswer

end Session

end PolicyReach
