import PolicyReach.Proofs.Session.Epoch
import PolicyReach.Proofs.Session.Inquiry

/-!
# Taking all paths, call by call

A flow session keeps an enumeration of paths between calls, while other calls may grow its graph. What
a run takes under a handle are the paths of one inquiry, in order.

* `Session.Pursues`: the enumeration under way under a handle has taken these paths;
* **`Pursues.call`**: every call keeps this, and adds the path that it takes;
* `Live`, `Live.call`: calls that do not end the enumeration leave it under way;
* **`enumeration_exact`**: over a whole run, the flows taken are those along all paths in order of
  weight, each once.
-/

namespace PolicyReach

open Registry (resolve own?)

/-! ## What a run takes -/

namespace Call

/-- The call ends the enumeration under a handle: it begins another one, aborts it, or gives up what
stands in the place of the handle. -/
inductive Ends (h : Handle) : Call → Prop
  | prepare (first last : String) : Ends h (.prepareFurther h first last)
  | abort : Ends h (.abortFurther h)
  | destroy {c : Call} {h' : Handle} (destroys : c.Destroys h') (slot : h.slot = h'.slot)
      (generation : h.generation = h'.generation) : Ends h c

/-- The outcome of the call, if it takes the next path under a handle. -/
def taking? (h : Handle) (o : Except AnalysisError Answer) :
    Call → Option (Except AnalysisError (List FlowResult))
  | .nextFurther h' => if h' = h then some (o.map Answer.results) else none
  | _ => none

theorem taking?_self {h : Handle} {o : Except AnalysisError Answer} :
    taking? h o (.nextFurther h) = some (o.map Answer.results) :=
  if_pos rfl

theorem taking?_of_ne {h : Handle} {o : Except AnalysisError Answer} {c : Call}
    (hc : c ≠ .nextFurther h) : c.taking? h o = none := by
  cases c with
  | nextFurther h' => exact if_neg fun heq => hc (congrArg Call.nextFurther heq)
  | _ => rfl

end Call

namespace Session

/-- The outcomes of the calls of a run that take the next path under a handle. -/
def takings (s : Session) (h : Handle) (cs : List Call) :
    List (Except AnalysisError (List FlowResult)) :=
  (s.outcomes cs).filterMap fun x => x.1.taking? h x.2

/-- The flows that a run takes under a handle. -/
def flowsTaken (s : Session) (h : Handle) (cs : List Call) : List FlowResult :=
  ((s.takings h cs).filterMap Except.toOption).flatten

variable {s s' : Session} {c : Call} {h : Handle} {q : Inquiry} {walks : List (List TypeName)}

theorem takings_append (s : Session) (h : Handle) (cs ds : List Call) :
    s.takings h (cs ++ ds) = s.takings h cs ++ (s.after cs).takings h ds := by
  unfold takings
  rw [outcomes_append, List.filterMap_append]

theorem flowsTaken_append (s : Session) (h : Handle) (cs ds : List Call) :
    s.flowsTaken h (cs ++ ds) = s.flowsTaken h cs ++ (s.after cs).flowsTaken h ds := by
  unfold flowsTaken
  rw [takings_append, List.filterMap_append, List.flatten_append]

theorem takings_cons (s : Session) (h : Handle) (c : Call) (cs : List Call) :
    s.takings h (c :: cs) = s.takings h [c] ++ (s.call c).2.takings h cs :=
  takings_append s h [c] cs

theorem takings_next (s : Session) (h : Handle) :
    s.takings h [.nextFurther h] = [(s.call (.nextFurther h)).1.map Answer.results] :=
  List.filterMap_cons_some Call.taking?_self

theorem takings_of_ne (s : Session) (hc : c ≠ .nextFurther h) : s.takings h [c] = [] :=
  List.filterMap_cons_none (Call.taking?_of_ne hc)

/-- **What comes of taking the next path**: an error, which changes nothing; no path, when none waits;
or a path with the flow along it. -/
theorem next_cases (s : Session) (h : Handle) :
    (∃ e, s.call (.nextFurther h) = (.error e, s)) ∨
      ∃ v e, resolve s.registry h = .ok v ∧ v.enumeration = some e ∧
        (e.next v.graph = .ok none ∧ s.call (.nextFurther h) = (.ok (.flows []), s) ∨
          ∃ best e', e.next v.graph = .ok (some (best, e')) ∧
            s.call (.nextFurther h) =
              (.ok (.flows (v.graph.walkResult? e'.orientation v.pathDirection e'.start
                best.walk).toList),
                { s with
                  registry := Registry.replace s.registry h { v with enumeration := some e' } })) := by
  have hcall : s.call (.nextFurther h) = Answer.ofOutcome .flows (s.nextFurther h) := rfl
  rcases onFlows_cases (s := s) fun _ r => FlowRegistry.nextFurther r h with
    ⟨e, he⟩ | ⟨p, results, r, -, hok, he⟩
  · left
    refine ⟨e, ?_⟩
    rw [hcall, nextFurther, he]
    rfl
  · right
    obtain ⟨v, e, hv, hunder, ⟨hnext, rfl, rfl⟩ | ⟨best, e', hnext, rfl, rfl⟩⟩ :=
      FlowRegistry.nextFurther_eq_ok hok
    · refine ⟨v, e, hv, hunder, Or.inl ⟨hnext, ?_⟩⟩
      rw [hcall, nextFurther, he]
      rfl
    · refine ⟨v, e, hv, hunder, Or.inr ⟨best, e', hnext, ?_⟩⟩
      rw [hcall, nextFurther, he]
      rfl

/-- A taking gives one flow at most. -/
theorem length_le_of_mem_takings {cs : List Call} {results : List FlowResult}
    (hr : .ok results ∈ s.takings h cs) : results.length ≤ 1 := by
  induction cs generalizing s with
  | nil => exact nomatch hr
  | cons c cs ih =>
    rw [takings_cons] at hr
    rcases List.mem_append.mp hr with hr | hr
    · by_cases hc : c = .nextFurther h
      · subst hc
        rw [takings_next, List.mem_singleton] at hr
        rcases next_cases s h with ⟨e, he⟩ | ⟨v, e, -, -, ⟨-, he⟩ | ⟨best, e', -, he⟩⟩
        · rw [he] at hr
          exact nomatch hr
        · rw [he] at hr
          obtain rfl := Except.ok.inj hr
          exact Nat.zero_le 1
        · rw [he] at hr
          obtain rfl := Except.ok.inj hr
          exact Option.length_toList_le
      · rw [takings_of_ne s hc] at hr
        exact nomatch hr
    · exact ih hr

/-! ## Calls and the enumeration under a handle -/

/-- Of the paths of an inquiry, these have been taken in order; the enumeration under the handle, if one
is under way, is for the others. -/
structure Pursues (s : Session) (h : Handle) (q : Inquiry) (walks : List (List TypeName)) :
    Prop where
  sound : Registry.Sound s.registry
  inOrder : q.InOrder walks
  flows : ∀ v e, own? s.registry h = some v → v.enumeration = some e →
    v.Pursues s.config q walks e

/-- Calls that neither prepare an enumeration under a handle nor take a path of it keep what it has
taken. -/
theorem Pursues.other (hq : q.Proper) (hs : s.Pursues h q walks) (he : Effect s c s')
    (hprepare : ∀ first last, c ≠ .prepareFurther h first last) (hnext : c ≠ .nextFurther h) :
    s'.Pursues h q walks := by
  refine ⟨he.sound hs.sound, hs.inOrder, fun v' e hv hunder => ?_⟩
  rw [he.config]
  rcases he.own?_cases hs.sound hv with hold | ⟨-, hnone⟩ | ⟨v, hresolved, habout, hstep⟩
  · exact hs.flows v' e hold hunder
  · rw [hnone] at hunder
    exact nomatch hunder
  · obtain ⟨hown, -⟩ := Registry.resolve_eq_ok_iff_own?.mp hresolved
    cases hstep with
    | continued grown => exact (hs.flows v e hown hunder).continued hq grown
    | prepared call kind ends grown =>
      subst call
      obtain rfl := Option.some.inj habout
      exact absurd rfl (hprepare _ _)
    | taken call under next =>
      subst call
      obtain rfl := Option.some.inj habout
      exact absurd rfl hnext
    | aborted call => exact nomatch hunder

/-- **Every call keeps what has been taken, and adds what it takes.** -/
theorem Pursues.call (hq : q.Proper) (hlimit : s.config.maxGraphEdges ≤ FlowGraph.edgeBound)
    (hs : s.Pursues h q walks) (hc : ∀ first last, c ≠ .prepareFurther h first last) :
    ∃ new, List.Forall₂ q.Reports (s.flowsTaken h [c]) new ∧
      (s.call c).2.Pursues h q (walks ++ new) := by
  have hsame : s.Pursues h q (walks ++ []) := by
    rw [List.append_nil]
    exact hs
  unfold flowsTaken
  by_cases hnext : c = .nextFurther h
  · subst hnext
    rw [takings_next]
    rcases next_cases s h with ⟨e, he⟩ | ⟨v, e, hv, hunder, ⟨-, he⟩ | ⟨best, e', hstep, he⟩⟩
    · rw [he]
      exact ⟨[], .nil, hsame⟩
    · rw [he]
      exact ⟨[], .nil, hsame⟩
    · obtain ⟨hown, -⟩ := Registry.resolve_eq_ok_iff_own?.mp hv
      obtain ⟨hheld, -⟩ := Registry.resolve_eq_ok_iff.mp hv
      obtain ⟨htaken, r, hr, hreports⟩ := (hs.flows v e hown hunder).taken hq hlimit hstep
      rw [he, hr]
      refine ⟨[best.walk], .cons hreports .nil, hs.sound.replace hheld _, htaken.inOrder, ?_⟩
      intro w f hw hf
      have hw' : own? (Registry.replace s.registry h { v with enumeration := some e' }) h =
          some w := hw
      rw [Registry.own?_replace hv, if_pos rfl] at hw'
      obtain rfl := Option.some.inj hw'
      obtain rfl := Option.some.inj hf
      exact htaken
  · rw [takings_of_ne s hnext]
    refine ⟨[], .nil, ?_⟩
    rw [List.append_nil]
    exact hs.other hq (call_effect s c) hc hnext

/-- **Over a run, the flows taken are those along the paths taken.** -/
theorem Pursues.after {cs : List Call} (hq : q.Proper)
    (hlimit : s.config.maxGraphEdges ≤ FlowGraph.edgeBound) (hs : s.Pursues h q walks)
    (hcs : ∀ first last, .prepareFurther h first last ∉ cs) :
    ∃ new, List.Forall₂ q.Reports (s.flowsTaken h cs) new ∧
      (s.after cs).Pursues h q (walks ++ new) := by
  induction cs generalizing s walks with
  | nil =>
    refine ⟨[], .nil, ?_⟩
    rw [List.append_nil]
    exact hs
  | cons c cs ih =>
    have hc : ∀ first last, c ≠ .prepareFurther h first last := by
      intro first last heq
      exact hcs first last (heq ▸ List.mem_cons_self)
    obtain ⟨taken, hflows, hcall⟩ := hs.call hq hlimit hc
    have hconfig := (call_effect s c).config
    obtain ⟨rest, hflows', hafter⟩ := ih (hconfig ▸ hlimit) hcall
      fun first last hmem => hcs first last (List.mem_cons_of_mem c hmem)
    refine ⟨taken ++ rest, ?_, ?_⟩
    · rw [← List.singleton_append, flowsTaken_append]
      exact List.rel_append hflows hflows'
    · rw [after_cons, ← List.append_assoc]
      exact hafter

/-- Taking gives no path only when all have been taken. -/
theorem Pursues.mem_of_next (hs : s.Pursues h q walks) (hq : q.Proper)
    (hlimit : s.config.maxGraphEdges ≤ FlowGraph.edgeBound)
    (hnext : (s.call (.nextFurther h)).1 = .ok (.flows [])) {w : List TypeName}
    (hw : q.IsPath w) : w ∈ walks := by
  rcases next_cases s h with ⟨e, he⟩ | ⟨v, e, hv, hunder, hcases⟩
  · rw [he] at hnext
    exact nomatch hnext
  · obtain ⟨hown, -⟩ := Registry.resolve_eq_ok_iff_own?.mp hv
    have hpursues := hs.flows v e hown hunder
    rcases hcases with ⟨hnone, -⟩ | ⟨best, e', hstep, he⟩
    · exact hpursues.mem_of_next hnone hw
    · obtain ⟨-, r, hr, -⟩ := hpursues.taken hq hlimit hstep
      rw [he, hr] at hnext
      exact nomatch Answer.flows.inj (Except.ok.inj hnext)

/-! ## Enumerations that are left under way -/

/-- The handle is of the current epoch, and an enumeration is under way under it. -/
structure Live (s : Session) (h : Handle) : Prop where
  epoch : h.epoch = s.epoch
  policy : ∃ p, s.policy = some p
  under : ∃ v e, own? s.registry h = some v ∧ v.enumeration = some e

/-- **A call that neither ends the enumeration nor begins an epoch leaves the enumeration under way.** -/
theorem Live.call (hs : Registry.Sound s.registry) (hl : s.Live h) (he : Effect s c s')
    (hc : ¬ c.Ends h) (hepoch : s'.epoch = s.epoch) : s'.Live h := by
  have hpolicy : ∃ p, s'.policy = some p := by
    rcases he.epoch_cases hs with hnew | ⟨-, hsame, -⟩
    · exact absurd (hnew.symm.trans hepoch) (epoch_succ_ne _)
    · rw [hsame]
      exact hl.policy
  refine ⟨hepoch ▸ hl.epoch, hpolicy, ?_⟩
  obtain ⟨v, e, hown, hunder⟩ := hl.under
  cases he with
  | quiet memo => exact ⟨v, e, hown, hunder⟩
  | policyChanged p => exact ⟨v, e, hown, hunder⟩
  | mapChanged m loads => exact ⟨v, e, hown, hunder⟩
  | invalidated => exact ⟨v, e, hown, hunder⟩
  | purged => exact ⟨v, e, Registry.own?_purgeStale hl.epoch hown, hunder⟩
  | begun policy permissions scope selected registered =>
    exact ⟨v, e, Registry.own?_register hs registered hown, hunder⟩
  | @stepped h' v' w about resolved step =>
    show ∃ v e, own? (Registry.replace s.registry h' w) h = some v ∧ v.enumeration = some e
    rw [Registry.own?_replace resolved]
    by_cases hsame : h = h'
    · subst hsame
      rw [if_pos rfl]
      obtain ⟨hown', -⟩ := Registry.resolve_eq_ok_iff_own?.mp resolved
      obtain rfl := Option.some.inj (hown.symm.trans hown')
      cases step with
      | continued grown => exact ⟨_, e, rfl, hunder⟩
      | prepared call kind ends grown =>
        subst call
        obtain rfl := Option.some.inj about
        exact absurd (.prepare _ _) hc
      | taken call under next => exact ⟨_, _, rfl, rfl⟩
      | aborted call =>
        subst call
        obtain rfl := Option.some.inj about
        exact absurd .abort hc
    · rw [if_neg hsame]
      exact ⟨v, e, hown, hunder⟩
  | @discarded h' w registry about destroyed =>
    refine ⟨v, e, ?_, hunder⟩
    show own? registry h = some v
    rw [Registry.own?_destroy destroyed, if_neg]
    · exact hown
    · rintro ⟨hslot, hgen⟩
      exact hc (.destroy about hslot hgen)

/-- Taking a path under way fails only if the queue would get too long. -/
theorem Live.next_error (hl : s.Live h) (hs : s.Pursues h q walks) {error : AnalysisError}
    (he : (s.call (.nextFurther h)).1 = .error error) :
    ∃ queued, error =
      .allocation (.candidates q.start q.finish queued s.config.maxCandidates) := by
  obtain ⟨v, e, hown, hunder⟩ := hl.under
  obtain ⟨p, hp⟩ := hl.policy
  have hv := Registry.resolve_eq_ok_iff_own?.mpr ⟨hown, hl.epoch⟩
  have hpursues := hs.flows v e hown hunder
  have hfails := (onFlows_eq_error_iff hp).mp (map_eq_error he : (s.nextFurther h).1 = .error error)
  have hnext := FlowRegistry.nextFurther_error hv hunder hfails
  obtain ⟨queued, -, rfl⟩ := PathEnumeration.next_error hnext
  exact ⟨queued, by rw [hpursues.start, hpursues.finish, hpursues.limit]⟩

/-- **Preparing an enumeration** begins one for the paths of the index, of which none has been taken. -/
theorem Founded.prepare (hs : s.Founded)
    (hlimit : s.config.maxGraphEdges ≤ FlowGraph.edgeBound) {first last : String}
    (hcall : s.call (.prepareFurther h first last) = (.ok .done, s')) :
    ∃ v p q, resolve s.registry h = .ok v ∧ s.policy = some p ∧ v.index = q.index ∧
      v.kind = .reach q.direction ∧ p.resolve first = some q.start ∧
      p.resolve last = some q.finish ∧ q.Proper ∧ s'.Pursues h q [] ∧ s'.Live h := by
  obtain ⟨u, hu, -⟩ : ∃ u, (s.prepareFurther h first last).1 = .ok u ∧ Answer.done = .done :=
    map_eq_ok_iff.mp (congrArg Prod.fst hcall)
  obtain ⟨p, r, hp, hok, hafter⟩ := onFlows_ok hu
  obtain rfl : { s with registry := r } = s' := hafter.symm.trans (congrArg Prod.snd hcall)
  obtain ⟨v, direction, start, finish, graph, hv, hkind, hstart, hfinish, hne, hg, rfl⟩ :=
    FlowContext.prepareFurther_eq_ok hok
  obtain ⟨hheld, hepoch⟩ := Registry.resolve_eq_ok_iff.mp hv
  have hv' : v.Founded s.config := hs.flows.of_held hheld
  have hproper : Inquiry.Proper ⟨v.index, direction, start, finish⟩ :=
    ⟨hv'.index, hv'.transitive hkind, hne⟩
  have hpursues := hv'.prepared hproper hlimit rfl hkind hg rfl
  have hown := Registry.own?_replace hv
    { v with
      graph
      enumeration :=
        some (.prepare graph start finish direction.orientation s.config.maxCandidates) } h
  rw [if_pos rfl] at hown
  refine ⟨v, p, ⟨v.index, direction, start, finish⟩, hv, hp, rfl, hkind, hstart, hfinish, hproper,
    ⟨hs.sound.replace hheld _, hpursues.inOrder, fun w e hw hunder => ?_⟩,
    ⟨hepoch, ⟨p, hp⟩, _, _, hown, rfl⟩⟩
  obtain rfl := Option.some.inj (hown.symm.trans hw)
  obtain rfl := Option.some.inj hunder
  exact hpursues

end Session

theorem length_flatten_of_singletons {ε α : Type} :
    ∀ {xs : List (Except ε (List α))}, (∀ x ∈ xs, ∃ r, x = .ok [r]) →
      ((xs.filterMap Except.toOption).flatten).length = xs.length
  | [], _ => rfl
  | x :: xs, h => by
    obtain ⟨r, rfl⟩ := h x List.mem_cons_self
    have ih := length_flatten_of_singletons fun y hy => h y (List.mem_cons_of_mem _ hy)
    show ([r] ++ (xs.filterMap Except.toOption).flatten).length = xs.length + 1
    rw [List.length_append, ih, List.length_singleton, Nat.add_comm]

namespace Session

variable {s s' : Session} {h : Handle} {q : Inquiry} {walks : List (List TypeName)}

/-- In a run that leaves an enumeration under way, taking fails only if the queue would get too long. -/
theorem Live.error_of_mem_takings {cs : List Call} (hq : q.Proper)
    (hlimit : s.config.maxGraphEdges ≤ FlowGraph.edgeBound) (hl : s.Live h)
    (hs : s.Pursues h q walks) (hcs : ∀ c ∈ cs, ¬ c.Ends h) (hepoch : s.invalidations cs = 0)
    {error : AnalysisError} (he : .error error ∈ s.takings h cs) :
    ∃ queued, error =
      .allocation (.candidates q.start q.finish queued s.config.maxCandidates) := by
  induction cs generalizing s walks with
  | nil => cases he
  | cons c cs ih =>
    have hc := hcs c List.mem_cons_self
    rw [takings_cons] at he
    rcases List.mem_append.mp he with he | he
    · by_cases hnext : c = .nextFurther h
      · subst hnext
        rw [takings_next, List.mem_singleton] at he
        exact hl.next_error hs (map_eq_error he.symm)
      · rw [takings_of_ne s hnext] at he
        cases he
    · rw [invalidations, Nat.add_eq_zero_iff] at hepoch
      have hsame : (s.call c).2.epoch = s.epoch := by
        by_contra hne
        rw [if_neg hne] at hepoch
        cases hepoch.1
      have heffect := call_effect s c
      have hprepare (first last : String) : c ≠ .prepareFurther h first last :=
        fun heq => hc (heq.symm ▸ .prepare first last)
      obtain ⟨new, -, hcall⟩ := hs.call hq hlimit hprepare
      rw [← heffect.config] at hlimit ⊢
      exact ih hlimit (hl.call hs.sound heffect hc hsame) hcall
        (fun d hd => hcs d (List.mem_cons_of_mem c hd)) hepoch.2 he

/-- **Alternative paths are enumerated in order, each once, and none is missed.** When an enumeration has
been prepared under a handle, after any run that loads permission maps which have been built, then

* over every run that does not prepare another one, the flows taken under the handle are along paths of
  the index, no two with the same types, and ascend by length; when taking gives nothing, they are all
  paths, each once;
* over every run that leaves the enumeration under way, taking fails only if the queue would get too
  long; and if it never fails, it gives nothing after finitely many takings. -/
theorem enumeration_exact {s₀ s₁ : Session} (h₀ : s₀.Initial)
    (hlimit : s₀.config.maxGraphEdges ≤ FlowGraph.edgeBound) {pre : List Call}
    (hmaps : ∀ m, .loadPermissions m ∈ pre → m.Built) {h : Handle} {first last : String}
    (hprepare : (s₀.after pre).call (.prepareFurther h first last) = (.ok .done, s₁)) :
    ∃ (v : FlowSession) (p : Policy) (q : Inquiry),
      resolve (s₀.after pre).registry h = .ok v ∧ (s₀.after pre).policy = some p ∧
      v.index = q.index ∧ v.kind = .reach q.direction ∧ p.resolve first = some q.start ∧
      p.resolve last = some q.finish ∧
      (∀ cs, (∀ x y, .prepareFurther h x y ∉ cs) →
        (∀ results, .ok results ∈ s₁.takings h cs → results.length ≤ 1) ∧
          q.Answers (s₁.flowsTaken h cs) ∧
          (((s₁.after cs).call (.nextFurther h)).1 = .ok (.flows []) →
            q.AllOnce (s₁.flowsTaken h cs))) ∧
      ∃ bound, ∀ cs, (∀ c ∈ cs, ¬ c.Ends h) → s₁.invalidations cs = 0 →
        (∀ e, .error e ∈ s₁.takings h cs → ∃ queued,
          e = .allocation (.candidates q.start q.finish queued s₀.config.maxCandidates)) ∧
          ((∀ e, .error e ∉ s₁.takings h cs) → bound < (s₁.takings h cs).length →
            .ok [] ∈ s₁.takings h cs) := by
  have hfounded := after_founded h₀.founded hmaps
  have hconfig : s₁.config = s₀.config := by
    have heffect := (call_effect (s₀.after pre) (.prepareFurther h first last)).config
    rw [hprepare] at heffect
    exact heffect.trans (config_after s₀ pre)
  obtain ⟨v, p, q, hv, hp, hindex, hkind, hstart, hfinish, hq, hpursues, hlive⟩ :=
    hfounded.prepare (config_after s₀ pre ▸ hlimit) hprepare
  rw [← hconfig] at hlimit ⊢
  refine ⟨v, p, q, hv, hp, hindex, hkind, hstart, hfinish, fun cs hcs => ?_,
    q.index.arrangements.length, fun cs hcs hepoch => ⟨fun e he => ?_, fun hok hmany => ?_⟩⟩
  · obtain ⟨walks, hreports, hafter⟩ := hpursues.after hq hlimit hcs
    refine ⟨fun results hmem => length_le_of_mem_takings hmem, hafter.inOrder.answers hreports,
      fun hnext => hafter.inOrder.allOnce hreports fun {w} hw => ?_⟩
    exact hafter.mem_of_next hq (config_after s₁ cs ▸ hlimit) hnext hw
  · exact hlive.error_of_mem_takings hq hlimit hpursues hcs hepoch he
  · by_contra hempty
    have hone : ∀ x ∈ s₁.takings h cs, ∃ r, x = .ok [r] := by
      rintro (e | results) hmem
      · exact absurd hmem (hok e)
      · have hle := length_le_of_mem_takings hmem
        match results with
        | [] => exact absurd hmem hempty
        | [r] => exact ⟨r, rfl⟩
    obtain ⟨walks, hreports, hafter⟩ := hpursues.after hq hlimit
      fun x y hmem => hcs _ hmem (.prepare x y)
    have htaken : (s₁.flowsTaken h cs).length = (s₁.takings h cs).length :=
      length_flatten_of_singletons hone
    have hwalks := hreports.length_eq
    have hbound := hafter.inOrder.length_le hq
    rw [List.nil_append] at hbound
    omega

/-- An analysis of the flows out of `a` over many hops. -/
def sampleReach : List Call :=
  [.loadPermissions .sample, .analyzeReach { direction := .fromStart, start := "a" }]

/-- The sample session when the paths from `a` to `c` are to be enumerated. -/
def samplePrepared : Session :=
  ((sample.after sampleReach).call (.prepareFurther ⟨0, 0, 1⟩ "a" "c")).2

/-- Two takings, between which the graph is grown. -/
def sampleTakings : List Call :=
  [.nextFurther ⟨0, 0, 1⟩, .continueFrom ⟨0, 0, 1⟩ "b", .nextFurther ⟨0, 0, 1⟩]

/-- Two takings give all paths from `a` to `c`. -/
theorem sample_all_taken :
    ∃ q : Inquiry, q.start = ⟨"a"⟩ ∧ q.finish = ⟨"c"⟩ ∧
      q.AllOnce (samplePrepared.flowsTaken ⟨0, 0, 1⟩ sampleTakings) := by
  have hinit : sample.Initial := ⟨{}, Or.inr ⟨.sample, rfl⟩⟩
  have hmaps : ∀ m, .loadPermissions m ∈ sampleReach → m.Built := by
    intro m hm
    rcases List.mem_cons.mp hm with heq | hm
    · cases heq
      exact PermissionMap.built_sample
    · exact nomatch List.mem_singleton.mp hm
  have hok : ((sample.after sampleReach).prepareFurther ⟨0, 0, 1⟩ "a" "c").1.toOption = some () := by
    decide +kernel
  have hprepare : (sample.after sampleReach).call (.prepareFurther ⟨0, 0, 1⟩ "a" "c") =
      (.ok .done, samplePrepared) :=
    Prod.ext (Answer.ofOutcome_eq_ok hok) rfl
  have hempty : ((samplePrepared.after sampleTakings).nextFurther ⟨0, 0, 1⟩).1.toOption = some [] := by
    decide +kernel
  obtain ⟨v, p, q, -, hp, -, -, hstart, hfinish, hruns, -⟩ :=
    enumeration_exact hinit (by decide) hmaps hprepare
  have hpolicy : (sample.after sampleReach).policy = some .sample := by decide +kernel
  obtain rfl := Option.some.inj (hp.symm.trans hpolicy)
  have hnames : Policy.sample.resolve "a" = some ⟨"a"⟩ ∧ Policy.sample.resolve "c" = some ⟨"c"⟩ := by
    decide +kernel
  obtain ⟨-, -, hall⟩ := hruns sampleTakings fun x y hmem => by simp [sampleTakings] at hmem
  exact ⟨q, Option.some.inj (hstart.symm.trans hnames.1), Option.some.inj (hfinish.symm.trans hnames.2),
    hall (Answer.ofOutcome_eq_ok hempty)⟩

example :
    (samplePrepared.flowsTaken ⟨0, 0, 1⟩ sampleTakings).map FlowResult.types =
      [[⟨"a"⟩, ⟨"b"⟩, ⟨"c"⟩], [⟨"a"⟩, ⟨"c"⟩]] := by
  decide +kernel

end Session

end PolicyReach
