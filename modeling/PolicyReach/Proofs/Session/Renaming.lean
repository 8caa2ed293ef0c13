import PolicyReach.Proofs.Policy.Renaming
import PolicyReach.Proofs.Session.Outcomes

/-!
# Calls under other names of types

Two sessions over policies whose rules use alike names (`Policy.Renamed`) are put to calls whose arguments
are alike. They answer the same and stay the same, but for the policies.

* `HopQuery.Renamed` and its kin: queries and flat records with alike names;
* `Renamed.results`, `Renamed.analyzeTransitions`, `Renamed.analyzeRelabel`: what analyses make of them;
* `Session.Renamed`: two sessions are one, but for names in the rules of their policies;
* `Renamed.call`: one call keeps that and gives one result;
* **`aliases_transparent`**: so do runs of any length, every analysis in them included.
-/

namespace PolicyReach

open List

/-! ## Queries -/

structure HopQuery.Renamed (p : Policy) (q q' : HopQuery) : Prop where
  direction : q'.direction = q.direction
  start : p.Alike q.start q'.start
  classPerms : q'.classPerms = q.classPerms
  filter : q'.filter = q.filter

structure ReachQuery.Renamed (p : Policy) (q q' : ReachQuery) : Prop where
  direction : q'.direction = q.direction
  start : p.Alike q.start q'.start
  intermediate :
    Option.Rel (fun s s' => p.AlikeNames s.toList s'.toList) q.intermediate q'.intermediate
  classPerms : q'.classPerms = q.classPerms
  filter : q'.filter = q.filter

structure TransitionQuery.Renamed (p : Policy) (q q' : TransitionQuery) : Prop where
  direction : q'.direction = q.direction
  start : p.Alike q.start q'.start
  access : p.AlikeNames q.access.toList q'.access.toList
  classPerms : q'.classPerms = q.classPerms
  filter : q'.filter = q.filter

structure RelabelQuery.Renamed (p : Policy) (q q' : RelabelQuery) : Prop where
  mode : q'.mode = q.mode
  start : p.Alike q.start q'.start
  classes : q'.classes = q.classes
  subjects : p.AlikeNames q.subjects.toList q'.subjects.toList
  filter : q'.filter = q.filter

structure HopParams.Renamed (p : Policy) (r r' : HopParams) : Prop where
  direction : r'.direction = r.direction
  start : p.Alike r.start r'.start
  entries : r'.entries = r.entries
  regex : r'.regex = r.regex

structure ReachParams.Renamed (p : Policy) (r r' : ReachParams) : Prop where
  direction : r'.direction = r.direction
  start : p.Alike r.start r'.start
  intermediate : p.AlikeNames r.intermediate r'.intermediate
  entries : r'.entries = r.entries
  regex : r'.regex = r.regex

structure TransitionParams.Renamed (p : Policy) (r r' : TransitionParams) : Prop where
  direction : r'.direction = r.direction
  start : p.Alike r.start r'.start
  access : p.AlikeNames r.access r'.access
  entries : r'.entries = r.entries
  regex : r'.regex = r.regex

structure RelabelParams.Renamed (p : Policy) (r r' : RelabelParams) : Prop where
  mode : r'.mode = r.mode
  start : p.Alike r.start r'.start
  classes : r'.classes = r.classes
  subjects : p.AlikeNames r.subjects r'.subjects
  regex : r'.regex = r.regex

section

variable (p : Policy)

theorem HopQuery.Renamed.refl (q : HopQuery) : q.Renamed p q := ⟨rfl, .refl p _, rfl, rfl⟩

theorem ReachQuery.Renamed.refl (q : ReachQuery) : q.Renamed p q where
  direction := rfl
  start := .refl p _
  intermediate := by
    cases q.intermediate with
    | none => exact .none
    | some names => exact .some (.refl p _)
  classPerms := rfl
  filter := rfl

theorem TransitionQuery.Renamed.refl (q : TransitionQuery) : q.Renamed p q :=
  ⟨rfl, .refl p _, .refl p _, rfl, rfl⟩

theorem RelabelQuery.Renamed.refl (q : RelabelQuery) : q.Renamed p q :=
  ⟨rfl, .refl p _, rfl, .refl p _, rfl⟩

end

/-! ## Flat records -/

/-- Two operations fail with one error, or give related results. -/
inductive Except.Related {ε α β : Type} (R : α → β → Prop) : Except ε α → Except ε β → Prop
  | error (e : ε) : Related R (.error e) (.error e)
  | ok {a : α} {b : β} (h : R a b) : Related R (.ok a) (.ok b)

theorem Except.Related.bind {ε α β β' : Type} {R : β → β' → Prop} {x : Except ε α}
    {f : α → Except ε β} {f' : α → Except ε β'} (hf : ∀ a, Related R (f a) (f' a)) :
    Related R (x >>= f) (x >>= f') := by
  cases x with
  | error e => exact .error e
  | ok a => exact hf a

section

variable {p : Policy}

theorem HopParams.Renamed.toQuery {r r' : HopParams} (h : r.Renamed p r') :
    Except.Related (HopQuery.Renamed p) r.toQuery r'.toQuery := by
  unfold HopParams.toQuery
  rw [h.direction, h.entries, h.regex]
  refine .bind fun direction => .bind fun classPerms => .bind fun filter => ?_
  exact .ok ⟨rfl, h.start, rfl, rfl⟩

theorem ReachParams.Renamed.toQuery {r r' : ReachParams} (h : r.Renamed p r') :
    Except.Related (ReachQuery.Renamed p) r.toQuery r'.toQuery := by
  unfold ReachParams.toQuery
  rw [h.direction, h.entries, h.regex, h.intermediate.isEmpty]
  refine .bind fun direction => .bind fun classPerms => .bind fun filter => ?_
  refine .ok ⟨rfl, h.start, ?_, rfl, rfl⟩
  dsimp only
  split
  · exact .none
  · exact .some h.intermediate.ofList

theorem TransitionParams.Renamed.toQuery {r r' : TransitionParams} (h : r.Renamed p r') :
    Except.Related (TransitionQuery.Renamed p) r.toQuery r'.toQuery := by
  unfold TransitionParams.toQuery
  rw [h.direction, h.entries, h.regex]
  refine .bind fun direction => .bind fun classPerms => .bind fun filter => ?_
  exact .ok ⟨rfl, h.start, h.access.ofList, rfl, rfl⟩

theorem RelabelParams.Renamed.toQuery {r r' : RelabelParams} (h : r.Renamed p r') :
    Except.Related (RelabelQuery.Renamed p) r.toQuery r'.toQuery := by
  unfold RelabelParams.toQuery
  rw [h.mode, h.regex, h.classes]
  refine .bind fun mode => .bind fun filter => ?_
  exact .ok ⟨rfl, h.start, rfl, h.subjects.ofList, rfl⟩

end

/-! ## Analyses -/

namespace Policy.Renamed

variable {p p' : Policy} (h : p.Renamed p')

include h

/-- Results depend on the policy through its filter only. -/
theorem results (g : FlowGraph) (f : Option NameFilter) (kind : FlowKind) (start : TypeName) :
    g.results p' f kind start = g.results p f kind start := by
  cases kind with
  | hop direction =>
    simp only [FlowGraph.results, FlowGraph.hopResults, FlowGraph.filteredFan, h.passes]
  | reach direction => simp only [FlowGraph.results, FlowGraph.reachResults, h.passes]

theorem accessFilter {q q' : TransitionQuery} (hq : q.Renamed p q') :
    AccessFilter.ofQuery p' q' = AccessFilter.ofQuery p q := by
  have hnone : q'.access.isEmpty = q.access.isEmpty := by
    rw [← OrdSet.isEmpty_toList, hq.access.isEmpty, OrdSet.isEmpty_toList]
  unfold AccessFilter.ofQuery TransitionQuery.hasAccessFilter
  rw [hnone, hq.classPerms, h.expandAll hq.access]

theorem accessRules (f : AccessFilter) (domain : TypeName) : f.rules p' domain = f.rules p domain := by
  unfold AccessFilter.rules
  refine congrArg OrdSet.ofList (map_eq_of_forall₂ (fun r r' hr => hr.id)
    (forall₂_filter (fun r r' hr => ?_) h.activeAllowRules))
  have htargets (t : TypeName) : p'.targetCovers r'.target domain t = p.targetCovers r.target domain t :=
    h.targetCovers hr.target domain t
  simp only [AccessFilter.meetsPerms, AccessFilter.meetsTypes, h.sourceCovers hr.source, htargets, hr.cls,
    hr.grants]

theorem held (subject : TypeName) (cls perm : String) :
    GrantMemo.held p' subject cls perm = GrantMemo.held p subject cls perm := by
  funext m
  simp only [GrantMemo.held, GrantMemo.lookup, h.grants]

theorem foundTransitions {q q' : TransitionQuery} (hq : q.Renamed p q') (access : Option AccessFilter)
    (start found : TypeName) (transition : OrdSet RuleId) :
    GrantMemo.foundTransitions p' q' access start found transition =
      GrantMemo.foundTransitions p q access start found transition := by
  have hpair (source target : TypeName) (rules : OrdSet RuleId) :
      GrantMemo.pairTransitions p' source target transition rules =
        GrantMemo.pairTransitions p source target transition rules := by
    simp only [GrantMemo.pairTransitions, h.held, h.transitionLabels]
  simp only [GrantMemo.foundTransitions, hq.filter, hq.direction, h.passes, h.accessRules, hpair]

theorem allTransitions {q q' : TransitionQuery} (hq : q.Renamed p q') (access : Option AccessFilter)
    (start : TypeName) (pairs : List (TypeName × OrdSet RuleId)) :
    GrantMemo.allTransitions p' q' access start pairs =
      GrantMemo.allTransitions p q access start pairs := by
  induction pairs with
  | nil => rfl
  | cons pair pairs ih => simp only [GrantMemo.allTransitions, h.foundTransitions hq, ih]

/-- A search for domain transitions finds the same, and leaves the same memo. -/
theorem analyzeTransitions {q q' : TransitionQuery} (hq : q.Renamed p q') (m : GrantMemo) :
    m.analyze p' q' = m.analyze p q := by
  unfold GrantMemo.analyze
  rw [h.resolve_alike hq.start]
  cases hstart : p.resolve q.start with
  | none =>
    obtain hname | ⟨t, ht, -⟩ := hq.start
    · rw [hname]
    · exact nomatch hstart.symm.trans ht
  | some start =>
    simp only [h.accessFilter hq, hq.direction, GrantMemo.lookup, h.grants, h.allTransitions hq]

/-- An analysis of relabelling gives the same. -/
theorem analyzeRelabel {q q' : RelabelQuery} (hq : q.Renamed p q') :
    p'.analyzeRelabel q' = p.analyzeRelabel q := by
  have hnone : q'.subjects.isEmpty = q.subjects.isEmpty := by
    rw [← OrdSet.isEmpty_toList, hq.subjects.isEmpty, OrdSet.isEmpty_toList]
  have hsubjects : p'.relabelSubjects q' = p.relabelSubjects q := by
    unfold relabelSubjects
    rw [hnone, h.expandAll hq.subjects]
  unfold Policy.analyzeRelabel
  rw [h.resolve_alike hq.start]
  cases hstart : p.resolve q.start with
  | none =>
    obtain hname | ⟨t, ht, -⟩ := hq.start
    · rw [hname]
    · exact nomatch hstart.symm.trans ht
  | some start =>
    simp only [relabelOfSubject, relabelOfObject, hsubjects, h.relabelGrants, h.passes, hq.classes,
      hq.filter, hq.mode]

end Policy.Renamed

/-! ## Operations on flow sessions -/

namespace FlowContext

/-- Two contexts are one, but for names in the rules of their policies. -/
structure Renamed (c c' : FlowContext) : Prop where
  policy : c.policy.Renamed c'.policy
  permissions : c'.permissions = c.permissions
  config : c'.config = c.config

namespace Renamed

variable {c c' : FlowContext} (h : c.Renamed c') {n m : String}

include h

theorem permissionMap : c'.permissionMap = c.permissionMap := by
  unfold FlowContext.permissionMap
  rw [h.permissions]

theorem typeOf (hn : c.policy.Alike n m) : c'.typeOf m = c.typeOf n := by
  unfold FlowContext.typeOf
  rw [h.policy.resolve_alike hn]
  obtain rfl | ⟨t, ht, -⟩ := hn
  · rfl
  · rw [ht]

theorem begin (r : FlowRegistry) (permissions : PermissionMap) (criteria : Criteria) (kind : FlowKind)
    (filter : Option NameFilter) (start : TypeName) :
    c'.begin r permissions criteria kind filter start = c.begin r permissions criteria kind filter start := by
  simp only [FlowContext.begin, h.policy.flows, h.policy.results, h.config]

theorem analyzeHops {q q' : HopQuery} (hq : q.Renamed c.policy q') (r : FlowRegistry) :
    c'.analyzeHops r q' = c.analyzeHops r q := by
  simp only [FlowContext.analyzeHops, h.permissionMap, h.typeOf hq.start, hq.classPerms, hq.direction,
    hq.filter, h.begin]

theorem intermediate {q q' : ReachQuery} (hq : q.Renamed c.policy q') :
    c'.intermediate q' = c.intermediate q := by
  unfold FlowContext.intermediate
  obtain ⟨hnone, hnone'⟩ | ⟨names, names', hsome, hsome', halike⟩ := cases_of_rel hq.intermediate
  · rw [hnone, hnone']
  · rw [hsome, hsome']
    exact congrArg (Except.map some) (h.policy.expandAll halike)

theorem analyzeReach {q q' : ReachQuery} (hq : q.Renamed c.policy q') (r : FlowRegistry) :
    c'.analyzeReach r q' = c.analyzeReach r q := by
  simp only [FlowContext.analyzeReach, h.permissionMap, h.typeOf hq.start, h.intermediate hq,
    hq.classPerms, hq.direction, hq.filter, h.begin]

theorem continueFrom (hn : c.policy.Alike n m) (r : FlowRegistry) (handle : Handle) :
    c'.continueFrom r handle m = c.continueFrom r handle n := by
  simp only [FlowContext.continueFrom, h.permissionMap, h.typeOf hn, h.config, h.policy.results]

theorem prepareFurther {n' m' : String} (hn : c.policy.Alike n m) (hn' : c.policy.Alike n' m')
    (r : FlowRegistry) (handle : Handle) :
    c'.prepareFurther r handle m m' = c.prepareFurther r handle n n' := by
  simp only [FlowContext.prepareFurther, h.permissionMap, h.typeOf hn, h.typeOf hn', h.config]

end Renamed

end FlowContext

/-! ## Calls -/

/-- Two calls are one, but for alike names in their arguments and in the rules of policies that they
load. -/
inductive Call.Renamed (p : Policy) : Call → Call → Prop
  | same (c : Call) : Renamed p c c
  | replacePolicy {q q' : Policy} (h : q.Renamed q') : Renamed p (.replacePolicy q) (.replacePolicy q')
  | loadPolicy {file file' : TextFile} {q q' : Policy} (loaded : Policy.ofFile file = .ok q)
      (loaded' : Policy.ofFile file' = .ok q') (h : q.Renamed q') :
      Renamed p (.loadPolicy file) (.loadPolicy file')
  | analyzeHops {q q' : HopQuery} (h : q.Renamed p q') : Renamed p (.analyzeHops q) (.analyzeHops q')
  | analyzeReach {q q' : ReachQuery} (h : q.Renamed p q') : Renamed p (.analyzeReach q) (.analyzeReach q')
  | continueFrom (handle : Handle) {n m : String} (h : p.Alike n m) :
      Renamed p (.continueFrom handle n) (.continueFrom handle m)
  | continueToken (token : String) {n m : String} (h : p.Alike n m) :
      Renamed p (.continueToken token n) (.continueToken token m)
  | prepareFurther (handle : Handle) {n m n' m' : String} (start : p.Alike n m)
      (finish : p.Alike n' m') : Renamed p (.prepareFurther handle n n') (.prepareFurther handle m m')
  | analyzeTransitions {q q' : TransitionQuery} (h : q.Renamed p q') :
      Renamed p (.analyzeTransitions q) (.analyzeTransitions q')
  | analyzeRelabel {q q' : RelabelQuery} (h : q.Renamed p q') :
      Renamed p (.analyzeRelabel q) (.analyzeRelabel q')
  | runHops {r r' : HopParams} (h : r.Renamed p r') : Renamed p (.runHops r) (.runHops r')
  | runReach {r r' : ReachParams} (h : r.Renamed p r') : Renamed p (.runReach r) (.runReach r')
  | runTransitions {r r' : TransitionParams} (h : r.Renamed p r') :
      Renamed p (.runTransitions r) (.runTransitions r')
  | runRelabel {r r' : RelabelParams} (h : r.Renamed p r') : Renamed p (.runRelabel r) (.runRelabel r')

/-- Two outcomes are one; a policy that is given back may have other names in its rules. -/
inductive Answer.Same : Except AnalysisError Answer → Except AnalysisError Answer → Prop
  | same (o : Except AnalysisError Answer) : Same o o
  | previous {p p' : Option Policy} (h : Option.Rel Policy.Renamed p p') :
      Same (.ok (.previous p)) (.ok (.previous p'))

theorem Answer.Same.of_eq {o o' : Except AnalysisError Answer} (h : o' = o) : Same o o' := h ▸ .same o

namespace Session

/-- Two sessions are one, but for names in the rules of their policies. -/
structure Renamed (s s' : Session) : Prop where
  config : s'.config = s.config
  policy : Option.Rel Policy.Renamed s.policy s'.policy
  permissions : s'.permissions = s.permissions
  fingerprint : s'.fingerprint = s.fingerprint
  registry : s'.registry = s.registry
  memo : s'.memo = s.memo

/-- What names in calls on a session are alike by: its policy, or none but equal names. -/
def names (s : Session) : Policy := s.policy.getD .empty

theorem names_eq {s : Session} {p : Policy} (hp : s.policy = some p) : s.names = p := by
  rw [names, hp]
  rfl

/-- Operations on two such sessions give one result, and two such sessions. -/
structure SameOutcome {α : Type} (o o' : SessionOutcome α) : Prop where
  result : o'.1 = o.1
  session : o.2.Renamed o'.2

/-- What is made of the results is the same too. -/
theorem SameOutcome.map {α β : Type} {o o' : SessionOutcome α} (h : SameOutcome o o') (f : α → β) :
    SameOutcome (o.1.map f, o.2) (o'.1.map f, o'.2) :=
  ⟨congrArg (Except.map f) h.result, h.session⟩

namespace Renamed

variable {s s' : Session} (hs : s.Renamed s') {n m : String}

include hs

theorem invalidateAll : s.invalidateAll.Renamed s'.invalidateAll where
  config := hs.config
  policy := hs.policy
  permissions := hs.permissions
  fingerprint := hs.fingerprint
  registry := congrArg Registry.invalidateAll hs.registry
  memo := congrArg GrantMemo.cleared hs.memo

theorem onFlows {α : Type}
    {op op' : FlowContext → FlowRegistry → Except AnalysisError (α × FlowRegistry)}
    (hop : ∀ c c', c.policy = s.names → c.Renamed c' → op' c' s.registry = op c s.registry) :
    SameOutcome (s.onFlows op) (s'.onFlows op') := by
  unfold Session.onFlows
  obtain ⟨hp, hp'⟩ | ⟨p, p', hp, hp', h⟩ := cases_of_rel hs.policy
  · rw [hp, hp']
    exact ⟨rfl, hs⟩
  · have hsame := hop ⟨p, s.permissions, s.config⟩ ⟨p', s'.permissions, s'.config⟩
      (names_eq hp).symm ⟨h, hs.permissions, hs.config⟩
    rw [hp, hp', hs.registry]
    dsimp only
    rw [hsame]
    cases op ⟨p, s.permissions, s.config⟩ s.registry with
    | error e => exact ⟨rfl, hs⟩
    | ok x => exact ⟨rfl, hs.config, .some h, hs.permissions, hs.fingerprint, rfl, hs.memo⟩

theorem onToken {α : Type} {op op' : Handle → SessionOutcome α} (token : String)
    (hop : ∀ h, SameOutcome (op h) (op' h)) : SameOutcome (s.onToken token op) (s'.onToken token op') := by
  unfold Session.onToken
  cases Handle.ofText token with
  | error e => exact ⟨rfl, hs⟩
  | ok h => exact hop h

/-! ### Changes -/

theorem replacePolicy {q q' : Policy} (hq : q.Renamed q') :
    (s.replacePolicy q).2.Renamed (s'.replacePolicy q').2 :=
  have hnew : { s with policy := some q }.Renamed { s' with policy := some q' } :=
    ⟨hs.config, .some hq, hs.permissions, hs.fingerprint, hs.registry, hs.memo⟩
  hnew.invalidateAll

theorem loadPermissions (m : PermissionMap) :
    (s'.loadPermissions m).1 = (s.loadPermissions m).1 ∧
      (s.loadPermissions m).2.Renamed (s'.loadPermissions m).2 := by
  unfold Session.loadPermissions
  rw [hs.fingerprint]
  dsimp only
  split
  · exact ⟨rfl, hs⟩
  · have hnew : { s with permissions := some m, fingerprint := some m.fingerprint }.Renamed
        { s' with permissions := some m, fingerprint := some m.fingerprint } :=
      ⟨hs.config, hs.policy, rfl, rfl, hs.registry, hs.memo⟩
    exact ⟨rfl, hnew.invalidateAll⟩

theorem setBoolean (name : String) (value : Bool) :
    SameOutcome (s.setBoolean name value) (s'.setBoolean name value) := by
  unfold Session.setBoolean
  obtain ⟨hp, hp'⟩ | ⟨p, p', hp, hp', h⟩ := cases_of_rel hs.policy
  · rw [hp, hp']
    exact ⟨rfl, hs⟩
  · have hcurrent : p'.boolean? name = p.boolean? name := by rw [Policy.boolean?, Policy.boolean?, h.booleans]
    rw [hp, hp']
    dsimp only
    rw [hcurrent]
    cases p.boolean? name with
    | none => exact ⟨rfl, hs⟩
    | some current =>
      dsimp only
      split
      · exact ⟨rfl, hs⟩
      · exact ⟨rfl, hs.replacePolicy (h.setBoolean name value)⟩

/-! ### Analyses -/

theorem analyzeHops {q q' : HopQuery} (hq : q.Renamed s.names q') :
    SameOutcome (s.analyzeHops q) (s'.analyzeHops q') :=
  hs.onFlows fun _ _ hc h => h.analyzeHops (hc ▸ hq) _

theorem analyzeReach {q q' : ReachQuery} (hq : q.Renamed s.names q') :
    SameOutcome (s.analyzeReach q) (s'.analyzeReach q') :=
  hs.onFlows fun _ _ hc h => h.analyzeReach (hc ▸ hq) _

theorem continueFrom (hn : s.names.Alike n m) (handle : Handle) :
    SameOutcome (s.continueFrom handle n) (s'.continueFrom handle m) :=
  hs.onFlows fun _ _ hc h => h.continueFrom (hc ▸ hn) _ _

theorem prepareFurther {n' m' : String} (hn : s.names.Alike n m) (hn' : s.names.Alike n' m')
    (handle : Handle) :
    SameOutcome (s.prepareFurther handle n n') (s'.prepareFurther handle m m') :=
  hs.onFlows fun _ _ hc h => h.prepareFurther (hc ▸ hn) (hc ▸ hn') _ _

theorem analyzeTransitions {q q' : TransitionQuery} (hq : q.Renamed s.names q') :
    SameOutcome (s.analyzeTransitions q) (s'.analyzeTransitions q') := by
  unfold Session.analyzeTransitions
  obtain ⟨hp, hp'⟩ | ⟨p, p', hp, hp', h⟩ := cases_of_rel hs.policy
  · rw [hp, hp']
    exact ⟨rfl, hs⟩
  · rw [hp, hp', hs.memo]
    dsimp only
    rw [h.analyzeTransitions (names_eq hp ▸ hq)]
    exact ⟨rfl, hs.config, .some h, hs.permissions, hs.fingerprint, hs.registry, rfl⟩

theorem analyzeRelabel {q q' : RelabelQuery} (hq : q.Renamed s.names q') :
    s'.analyzeRelabel q' = s.analyzeRelabel q := by
  unfold Session.analyzeRelabel
  obtain ⟨hp, hp'⟩ | ⟨p, p', hp, hp', h⟩ := cases_of_rel hs.policy
  · rw [hp, hp']
  · rw [hp, hp']
    exact h.analyzeRelabel (names_eq hp ▸ hq)

/-! ### Flat records -/

theorem runHops {r r' : HopParams} (hr : r.Renamed s.names r') :
    SameOutcome (s.runHops r) (s'.runHops r') := by
  have hquery := hr.toQuery
  unfold Session.runHops
  generalize r.toQuery = x at hquery
  generalize r'.toQuery = x' at hquery
  cases hquery with
  | error e => exact ⟨rfl, hs⟩
  | ok hq => exact (hs.analyzeHops hq).map _

theorem runReach {r r' : ReachParams} (hr : r.Renamed s.names r') :
    SameOutcome (s.runReach r) (s'.runReach r') := by
  have hquery := hr.toQuery
  unfold Session.runReach
  generalize r.toQuery = x at hquery
  generalize r'.toQuery = x' at hquery
  cases hquery with
  | error e => exact ⟨rfl, hs⟩
  | ok hq => exact (hs.analyzeReach hq).map _

theorem runTransitions {r r' : TransitionParams} (hr : r.Renamed s.names r') :
    SameOutcome (s.runTransitions r) (s'.runTransitions r') := by
  have hquery := hr.toQuery
  unfold Session.runTransitions
  generalize r.toQuery = x at hquery
  generalize r'.toQuery = x' at hquery
  cases hquery with
  | error e => exact ⟨rfl, hs⟩
  | ok hq => exact (hs.analyzeTransitions hq).map _

theorem runRelabel {r r' : RelabelParams} (hr : r.Renamed s.names r') :
    s'.runRelabel r' = s.runRelabel r := by
  have hquery := hr.toQuery
  unfold Session.runRelabel
  generalize r.toQuery = x at hquery
  generalize r'.toQuery = x' at hquery
  cases hquery with
  | error e => rfl
  | ok hq => exact congrArg (Except.map _) (hs.analyzeRelabel hq)

/-! ### Any call -/

theorem loadPolicy {file file' : TextFile} {q q' : Policy} (hload : Policy.ofFile file = .ok q)
    (hload' : Policy.ofFile file' = .ok q') (hq : q.Renamed q') :
    SameOutcome (s.loadPolicy file) (s'.loadPolicy file') := by
  unfold Session.loadPolicy
  rw [hload, hload']
  exact ⟨rfl, hs.replacePolicy hq⟩

theorem loadPolicy_same (file : TextFile) : SameOutcome (s.loadPolicy file) (s'.loadPolicy file) := by
  cases hload : Policy.ofFile file with
  | error e =>
    unfold Session.loadPolicy
    rw [hload]
    exact ⟨rfl, hs⟩
  | ok q => exact hs.loadPolicy hload hload (.refl q)

theorem loadPermissionsFile (file : TextFile) :
    SameOutcome (s.loadPermissionsFile file) (s'.loadPermissionsFile file) := by
  unfold Session.loadPermissionsFile
  cases PermissionMap.ofFile file with
  | error e => exact ⟨rfl, hs⟩
  | ok m =>
    obtain ⟨hflag, hsession⟩ := hs.loadPermissions m
    exact ⟨congrArg Except.ok hflag, hsession⟩

theorem purgeStale :
    s'.purgeStale.1 = s.purgeStale.1 ∧ s.purgeStale.2.Renamed s'.purgeStale.2 := by
  unfold Session.purgeStale
  rw [hs.registry]
  exact ⟨rfl, hs.config, hs.policy, hs.permissions, hs.fingerprint, rfl, hs.memo⟩

theorem replacePolicy_call {q q' : Policy} (hq : q.Renamed q') :
    Answer.Same (s.call (.replacePolicy q)).1 (s'.call (.replacePolicy q')).1 ∧
      (s.call (.replacePolicy q)).2.Renamed (s'.call (.replacePolicy q')).2 :=
  ⟨.previous hs.policy, hs.replacePolicy hq⟩

/-- **A call under other names gives the same**, and leaves the same. -/
theorem call {c c' : Call} (hc : c.Renamed s.names c') :
    Answer.Same (s.call c).1 (s'.call c').1 ∧ (s.call c).2.Renamed (s'.call c').2 := by
  -- the answer is made of what the operation gives
  have hanswer {α : Type} {f : α → Answer} {o o' : SessionOutcome α} (ho : SameOutcome o o') :
      Answer.Same (Answer.ofOutcome f o).1 (Answer.ofOutcome f o').1 ∧
        (Answer.ofOutcome f o).2.Renamed (Answer.ofOutcome f o').2 :=
    ⟨.of_eq (ho.map f).result, ho.session⟩
  have hrelabel {r r' : Except AnalysisError Answer} (hr : r' = r) :
      Answer.Same r r' ∧ s.Renamed s' := ⟨.of_eq hr, hs⟩
  cases hc with
  | replacePolicy h => exact hs.replacePolicy_call h
  | loadPolicy loaded loaded' h => exact hanswer (hs.loadPolicy loaded loaded' h)
  | analyzeHops h => exact hanswer (hs.analyzeHops h)
  | analyzeReach h => exact hanswer (hs.analyzeReach h)
  | continueFrom handle h => exact hanswer (hs.continueFrom h handle)
  | continueToken token h => exact hanswer (hs.onToken token (hs.continueFrom h))
  | prepareFurther handle start finish => exact hanswer (hs.prepareFurther start finish handle)
  | analyzeTransitions h => exact hanswer (hs.analyzeTransitions h)
  | analyzeRelabel h => exact hrelabel (congrArg (Except.map _) (hs.analyzeRelabel h))
  | runHops h => exact hanswer (hs.runHops h)
  | runReach h => exact hanswer (hs.runReach h)
  | runTransitions h => exact hanswer (hs.runTransitions h)
  | runRelabel h => exact hrelabel (congrArg (Except.map _) (hs.runRelabel h))
  | same =>
    cases c with
    | replacePolicy q => exact hs.replacePolicy_call (.refl q)
    | loadPolicy file => exact hanswer (hs.loadPolicy_same file)
    | loadPermissions m =>
      obtain ⟨hflag, hsession⟩ := hs.loadPermissions m
      exact ⟨.of_eq (congrArg (fun b => Except.ok (Answer.flag b)) hflag), hsession⟩
    | loadPermissionsFile file => exact hanswer (hs.loadPermissionsFile file)
    | setBoolean name value => exact hanswer (hs.setBoolean name value)
    | invalidateAll =>
      have hepoch : s'.invalidateAll.epoch = s.invalidateAll.epoch :=
        congrArg Registry.epoch hs.invalidateAll.registry
      exact ⟨.of_eq (congrArg (fun e => Except.ok (Answer.epoch e)) hepoch), hs.invalidateAll⟩
    | purgeStale =>
      obtain ⟨hcount, hsession⟩ := hs.purgeStale
      exact ⟨.of_eq (congrArg (fun n => Except.ok (Answer.count n)) hcount), hsession⟩
    | analyzeHops q => exact hanswer (hs.analyzeHops (.refl _ q))
    | analyzeReach q => exact hanswer (hs.analyzeReach (.refl _ q))
    | continueFrom handle name => exact hanswer (hs.continueFrom (.refl _ name) handle)
    | prepareFurther handle first last =>
      exact hanswer (hs.prepareFurther (.refl _ first) (.refl _ last) handle)
    | nextFurther handle => exact hanswer (hs.onFlows fun _ _ _ _ => rfl)
    | abortFurther handle => exact hanswer (hs.onFlows fun _ _ _ _ => rfl)
    | destroy handle => exact hanswer (hs.onFlows fun _ _ _ _ => rfl)
    | continueToken token name => exact hanswer (hs.onToken token (hs.continueFrom (.refl _ name)))
    | destroyToken token => exact hanswer (hs.onToken token fun _ => hs.onFlows fun _ _ _ _ => rfl)
    | analyzeTransitions q => exact hanswer (hs.analyzeTransitions (.refl _ q))
    | analyzeRelabel q => exact hrelabel (congrArg (Except.map _) (hs.analyzeRelabel (.refl _ q)))
    | runHops r => exact hanswer (hs.runHops ⟨rfl, .refl _ _, rfl, rfl⟩)
    | runReach r => exact hanswer (hs.runReach ⟨rfl, .refl _ _, .refl _ _, rfl, rfl⟩)
    | runTransitions r => exact hanswer (hs.runTransitions ⟨rfl, .refl _ _, .refl _ _, rfl, rfl⟩)
    | runRelabel r =>
      exact hrelabel (congrArg (Except.map _) (hs.runRelabel ⟨rfl, .refl _ _, rfl, .refl _ _, rfl⟩))

end Renamed

/-! ## Runs -/

/-- Two runs from a session are renamed call by call, each by the names at that point. -/
inductive RenamedRun : Session → List Call → List Call → Prop
  | nil {s : Session} : RenamedRun s [] []
  | cons {s : Session} {c c' : Call} {cs cs' : List Call} (call : c.Renamed s.names c')
      (rest : RenamedRun (s.call c).2 cs cs') : RenamedRun s (c :: cs) (c' :: cs')

/-- **Aliases are transparent.** Let two sessions be one but for alike names in the rules of their policies,
and two runs be one but for alike names in their calls: start types, intermediate, access and subject types,
either end of a continuation or an enumeration, and names in the rules of policies that are loaded. Then
their calls succeed and fail alike and every analysis gives the same results, references of rules included;
and what is left is the same again, but for names in the rules. -/
theorem aliases_transparent {s s' : Session} (hs : s.Renamed s') {cs cs' : List Call}
    (hcs : s.RenamedRun cs cs') :
    Forall₂ (fun x x' => Answer.Same x.2 x'.2) (s.outcomes cs) (s'.outcomes cs') ∧
      (s.after cs).Renamed (s'.after cs') := by
  induction hcs generalizing s' with
  | nil => exact ⟨.nil, hs⟩
  | cons hcall _ ih =>
    obtain ⟨hanswer, hnext⟩ := hs.call hcall
    obtain ⟨hanswers, hafter⟩ := ih hnext
    exact ⟨.cons hanswer hanswers, hafter⟩

/-- A policy that uses a name for the type `a`, which has the alias `x`: flows over `b` to `c`, and a
transition to `b` through `e` with a labelling rule. -/
def sampleNamed (name : String) : Policy :=
  let p := (((Policy.empty.addAlias "a" "x").addType "b").addType "c").addType "e"
  let p := (p.addAccessRule .allow name "b" "file" ["write"] none).2
  let p := (p.addAccessRule .allow "b" "c" "file" ["write"] none).2
  let p := (p.addAccessRule .allow name "b" "process" ["transition"] none).2
  let p := (p.addAccessRule .allow name "e" "file" ["execute"] none).2
  let p := (p.addAccessRule .allow "b" "e" "file" ["entrypoint"] none).2
  (p.addLabelRule .typeTransition name "e" "process" "b" none).2

/-- Analyses of both kinds at a type under one of its names. -/
def sampleNamedRun (name : String) : List Call :=
  [.loadPermissions .sample,
    .analyzeReach { direction := .fromStart, start := name, intermediate := some (.ofList [name, "b"]) },
    .prepareFurther ⟨0, 0, 1⟩ name "c", .nextFurther ⟨0, 0, 1⟩,
    .analyzeTransitions { direction := .reverse, start := "b", access := .ofList ["b"] }]

theorem alike_sampleNamed : (sampleNamed "a").Alike "a" "x" :=
  Or.inr ⟨⟨"a"⟩, by decide +kernel, by decide +kernel⟩

theorem renamed_sampleNamed : (sampleNamed "a").Renamed (sampleNamed "x") where
  types := rfl
  aliases := rfl
  attributes := rfl
  booleans := rfl
  access :=
    have h (n : String) : (sampleNamed "a").AlikeTarget n n := .refl _ n
    .cons ⟨rfl, rfl, alike_sampleNamed, h _, rfl, rfl, rfl⟩ <|
    .cons ⟨rfl, rfl, .refl _ _, h _, rfl, rfl, rfl⟩ <|
    .cons ⟨rfl, rfl, alike_sampleNamed, h _, rfl, rfl, rfl⟩ <|
    .cons ⟨rfl, rfl, alike_sampleNamed, h _, rfl, rfl, rfl⟩ <|
    .cons ⟨rfl, rfl, .refl _ _, h _, rfl, rfl, rfl⟩ .nil
  labels := .cons ⟨rfl, rfl, alike_sampleNamed, .refl _ _, rfl, .refl _ _, rfl⟩ .nil

/-- The policy is written with `a` in one session and with `x` in the other, and so are the calls. -/
theorem sample_renamed :
    let s := ofPolicy {} (sampleNamed "a")
    let s' := ofPolicy {} (sampleNamed "x")
    s.Renamed s' ∧ s.RenamedRun (sampleNamedRun "a") (sampleNamedRun "x") ∧
      Forall₂ (fun x x' => Answer.Same x.2 x'.2) (s.outcomes (sampleNamedRun "a"))
        (s'.outcomes (sampleNamedRun "x")) ∧
      (s.after (sampleNamedRun "a")).Renamed (s'.after (sampleNamedRun "x")) := by
  intro s s'
  have hs : s.Renamed s' := ⟨rfl, .some renamed_sampleNamed, rfl, rfl, rfl, rfl⟩
  have hnames (n : Nat) (hn : n < 5) :
      (s.after ((sampleNamedRun "a").take n)).names = sampleNamed "a" := by
    revert n
    decide +kernel
  have hlist : (sampleNamed "a").AlikeNames ["a", "b"] ["x", "b"] :=
    { left := by simp [alike_sampleNamed, Policy.Alike.refl]
      right := by simp [alike_sampleNamed, Policy.Alike.refl] }
  have hcs : s.RenamedRun (sampleNamedRun "a") (sampleNamedRun "x") := by
    refine .cons (.same _) (.cons (.analyzeReach ?_) (.cons (.prepareFurther _ ?_ (.refl _ _))
      (.cons (.same _) (.cons (.same _) .nil))))
    · exact hnames 1 (by decide) ▸ ⟨rfl, alike_sampleNamed, .some hlist.ofList, rfl, rfl⟩
    · exact hnames 2 (by decide) ▸ alike_sampleNamed
  exact ⟨hs, hcs, aliases_transparent hs hcs⟩

end Session

end PolicyReach
