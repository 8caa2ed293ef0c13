import PolicyReach.Proofs.Registry.Isolation
import PolicyReach.Proofs.Session.Epoch

/-!
# Flow sessions do not interfere

All flow sessions of an analysis session live in one registry, whose slots are used again. What is done
under one handle must not advance, change or destroy what another one names.

* `Effect.performs`: a call performs one operation on the registry, about the handle that the call is
  about;
* **`accounts_of_issued`**: the registry accounts for every handle that a run has given out, until the
  slot of that handle has been given up `2 ^ 32` times (`Session.frees`);
* **`Effect.agrees`**: a call that is about another place and begins no epoch leaves what a handle
  names, with all that calls on it read (`Session.Agrees`);
* **`Agrees.call`**: sessions that agree under a handle answer a call on it alike, and agree after it;
* **`spared`**: over a whole run of calls that use other handles, a handle keeps its flow session, and
  all later calls on it are answered as if the run had not been.

The run may use any handles that have been given out, stale ones too: destroying looks at the slot and
the generation only. That such a handle is not of the same place is what the count of releases is for.
-/

namespace PolicyReach

open Registry (resolve)

/-- A call that destroys under a handle is about that handle. -/
theorem Call.Destroys.handle? {c : Call} {h : Handle} (hc : c.Destroys h) : c.handle? = some h := by
  rcases hc with rfl | ⟨token, rfl, ht⟩
  · rfl
  · exact ht

namespace Session

variable {s s' t : Session} {c : Call} {h : Handle} {v : FlowSession}

/-! ## Calls as operations on the registry -/

/-- A call leaves the registry, or performs one operation on it. -/
theorem Effect.performs (he : Effect s c s') :
    s'.registry = s.registry ∨ ∃ op reply, Registry.Performs s.registry op reply s'.registry ∧
      ∀ h, op.handle? = some h → c.handle? = some h := by
  cases he with
  | quiet memo => exact Or.inl rfl
  | policyChanged p => exact Or.inr ⟨_, _, .invalidated, fun _ => (nomatch ·)⟩
  | mapChanged m loads => exact Or.inr ⟨_, _, .invalidated, fun _ => (nomatch ·)⟩
  | invalidated => exact Or.inr ⟨_, _, .invalidated, fun _ => (nomatch ·)⟩
  | purged => exact Or.inr ⟨_, _, .purged, fun _ => (nomatch ·)⟩
  | begun policy permissions scope selected registered =>
    exact Or.inr ⟨_, _, .registered registered, fun _ => (nomatch ·)⟩
  | @stepped h v v' about resolved step =>
    refine Or.inr ⟨_, _, .modified (fun _ => v') resolved, fun h' hh => ?_⟩
    obtain rfl := Option.some.inj hh
    exact about
  | discarded about destroyed =>
    refine Or.inr ⟨_, _, .destroyed destroyed, fun h' hh => ?_⟩
    obtain rfl := Option.some.inj hh
    exact about.handle?

/-- The number of calls of a run that give up what slot `i` holds. -/
def frees (s : Session) (i : Nat) : List Call → Nat
  | [] => 0
  | c :: cs =>
    (s.registry.occupied i && !(s.call c).2.registry.occupied i).toNat + frees (s.call c).2 i cs

theorem frees_append (s : Session) (i : Nat) (cs ds : List Call) :
    s.frees i (cs ++ ds) = s.frees i cs + (s.after cs).frees i ds := by
  induction cs generalizing s with
  | nil => exact (Nat.zero_add _).symm
  | cons c cs ih => simp only [List.cons_append, frees, after_cons, ih, Nat.add_assoc]

/-- The generation of a slot counts how often calls give up what it holds, as long as it does not wrap
around. -/
theorem toNat_generation_call (hs : Registry.Sound s.registry) {i : Nat} {cs : List Call}
    (hfew : (s.registry.generation i).toNat + s.frees i (c :: cs) < 2 ^ 32) :
    ((s.call c).2.registry.generation i).toNat + (s.call c).2.frees i cs =
      (s.registry.generation i).toNat + s.frees i (c :: cs) := by
  rw [frees] at hfew ⊢
  rcases (call_effect s c).performs with hsame | ⟨op, reply, hop, -⟩
  · simp [hsame]
  · rw [hop.toNat_generation hs fun hi hi' => ?_, Nat.add_assoc]
    rw [hi, hi'] at hfew
    exact Nat.lt_of_le_of_lt (Nat.add_le_add_left (Nat.le_add_right 1 _) _) hfew

/-- A run keeps a registry accounting for a handle, as long as the generation of its slot does not wrap
around. -/
theorem accounts_after {cs : List Call} (hs : Registry.Sound s.registry)
    (hh : Registry.Accounts s.registry h)
    (hfew : (s.registry.generation h.slot.toNat).toNat + s.frees h.slot.toNat cs < 2 ^ 32) :
    Registry.Accounts (s.after cs).registry h := by
  induction cs generalizing s with
  | nil => exact hh
  | cons c cs ih =>
    have heffect := call_effect s c
    refine ih (heffect.sound hs) ?_ (toNat_generation_call hs hfew ▸ hfew)
    rcases heffect.performs with hsame | ⟨op, reply, hop, -⟩
    · rw [hsame]
      exact hh
    · refine hop.accounts hs (fun hi hi' => ?_) hh
      rw [frees, hi, hi'] at hfew
      exact Nat.lt_of_le_of_lt (Nat.add_le_add_left (Nat.le_add_right 1 _) _) hfew

/-- **The registry accounts for every handle that a run has given out**, as long as the generation of its
slot does not wrap around. -/
theorem accounts_of_issued {cs : List Call} (hs : Registry.Sound s.registry) (hh : h ∈ s.issued cs)
    (hfew : (s.registry.generation h.slot.toNat).toNat + s.frees h.slot.toNat cs < 2 ^ 32) :
    Registry.Accounts (s.after cs).registry h := by
  induction cs generalizing s with
  | nil => exact nomatch hh
  | cons c cs ih =>
    have hs' := (call_effect s c).sound hs
    have hfew' := toNat_generation_call hs hfew ▸ hfew
    rw [issued_cons, List.mem_append, Option.mem_toList] at hh
    rw [after_cons]
    rcases hh with hgiven | hlater
    · obtain ⟨a, ha, hah⟩ := gives_iff.mpr hgiven
      obtain ⟨v, registry, hreg, hcall⟩ := call_registers ha hah
      have hnew : Registry.Accounts (s.call c).2.registry h := by
        rw [hcall]
        exact Registry.accounts_register hs hreg
      exact accounts_after hs' hnew hfew'
    · exact ih hs' hlater hfew'

/-! ## Calls about other handles -/

/-- Two sessions have the same under a handle, and all else that calls on it read. -/
structure Agrees (s : Session) (h : Handle) (t : Session) : Prop where
  config : t.config = s.config
  policy : t.policy = s.policy
  permissions : t.permissions = s.permissions
  registry : Registry.Alike s.registry h t.registry

theorem Agrees.refl (s : Session) (h : Handle) : s.Agrees h s := ⟨rfl, rfl, rfl, .refl _ h⟩

theorem Agrees.trans {u : Session} (hst : s.Agrees h t) (htu : t.Agrees h u) : s.Agrees h u :=
  ⟨htu.config.trans hst.config, htu.policy.trans hst.policy, htu.permissions.trans hst.permissions,
    hst.registry.trans htu.registry⟩

/-- **A call about another place that begins no epoch leaves what a handle names**, and all else that
calls on it read. -/
theorem Effect.agrees (hs : Registry.Sound s.registry) (he : Effect s c s')
    (hv : resolve s.registry h = .ok v) (hepoch : s'.epoch = s.epoch)
    (hother : ∀ h', c.handle? = some h' → ¬ (h'.slot = h.slot ∧ h'.generation = h.generation)) :
    s.Agrees h s' := by
  obtain ⟨-, hpolicy, hpermissions⟩ :=
    (he.epoch_cases hs).resolve_left fun hnext => epoch_succ_ne _ (hnext.symm.trans hepoch)
  refine ⟨he.config, hpolicy, hpermissions, ?_⟩
  rcases he.performs with hsame | ⟨op, reply, hop, habout⟩
  · rw [hsame]
    exact .refl _ h
  · exact hop.alike hs hv (fun h' hh => hother h' (habout h' hh)) hepoch

end Session

/-! ## Calls on a handle -/

/-- Two outcomes are one answer or one error, over registries that are alike under a handle. -/
inductive FlowRegistry.SameOutcome {α : Type} (h : Handle) :
    Except AnalysisError (α × FlowRegistry) → Except AnalysisError (α × FlowRegistry) → Prop
  | error (e : AnalysisError) : SameOutcome h (.error e) (.error e)
  | ok (a : α) {r r' : FlowRegistry} (alike : Registry.Alike r h r') :
      SameOutcome h (.ok (a, r)) (.ok (a, r'))

namespace FlowRegistry

variable {α β : Type} {h : Handle} {r r' : FlowRegistry}

theorem SameOutcome.bind {x : Except AnalysisError β}
    {f f' : β → Except AnalysisError (α × FlowRegistry)}
    (hf : ∀ b, x = .ok b → SameOutcome h (f b) (f' b)) : SameOutcome h (x >>= f) (x >>= f') := by
  cases x with
  | error e => exact .error e
  | ok b => exact hf b rfl

theorem session_of_alike (hr : Registry.Alike r h r') : r'.session h = r.session h := by
  unfold session
  rw [hr.resolve]

theorem sameOutcome_continueFrom (c : FlowContext) (hr : Registry.Alike r h r') (name : String) :
    SameOutcome h (c.continueFrom r h name) (c.continueFrom r' h name) := by
  unfold FlowContext.continueFrom
  rw [session_of_alike hr]
  refine .bind fun v hv => .bind fun _ _ => .bind fun start _ => .bind fun graph _ => ?_
  exact .ok _ (hr.replace (session_eq_ok_iff.mp hv) _)

theorem sameOutcome_prepareFurther (c : FlowContext) (hr : Registry.Alike r h r')
    (first last : String) :
    SameOutcome h (c.prepareFurther r h first last) (c.prepareFurther r' h first last) := by
  unfold FlowContext.prepareFurther
  rw [session_of_alike hr]
  refine .bind fun v hv => ?_
  cases v.kind with
  | hop direction => exact .error _
  | reach direction =>
    refine .bind fun _ _ => .bind fun start _ => .bind fun finish _ => ?_
    by_cases hends : start = finish
    · simp only [if_pos hends]
      exact .error _
    · simp only [if_neg hends]
      refine .bind fun graph _ => ?_
      exact .ok () (hr.replace (session_eq_ok_iff.mp hv) _)

theorem sameOutcome_nextFurther (hr : Registry.Alike r h r') :
    SameOutcome h (r.nextFurther h) (r'.nextFurther h) := by
  unfold nextFurther
  rw [session_of_alike hr]
  refine .bind fun v hv => ?_
  cases v.enumeration with
  | none => exact .error _
  | some e =>
    refine .bind fun taken _ => ?_
    cases taken with
    | none => exact .ok [] hr
    | some x => exact .ok _ (hr.replace (session_eq_ok_iff.mp hv) _)

theorem sameOutcome_abortFurther (hr : Registry.Alike r h r') :
    SameOutcome h (r.abortFurther h) (r'.abortFurther h) := by
  unfold abortFurther
  rw [session_of_alike hr]
  exact .bind fun v hv => .ok _ (hr.replace (session_eq_ok_iff.mp hv) _)

theorem sameOutcome_discard (hr : Registry.Alike r h r') :
    SameOutcome h (r.discard h) (r'.discard h) := by
  unfold discard
  rcases hr.destroy with ⟨fault, hd, hd'⟩ | ⟨v, x, x', hd, hd', hx⟩
  · rw [hd, hd']
    exact .error _
  · rw [hd, hd']
    exact .ok () hx

end FlowRegistry

namespace Session

open FlowRegistry

variable {s s' t : Session} {c : Call} {h : Handle} {v : FlowSession}

/-- Sessions that agree under a handle give the same, and agree after it, where an operation does so over
their registries. -/
theorem Agrees.onFlows {α : Type}
    {op : FlowContext → FlowRegistry → Except AnalysisError (α × FlowRegistry)}
    (hst : s.Agrees h t) (hop : ∀ c, SameOutcome h (op c s.registry) (op c t.registry)) :
    (t.onFlows op).1 = (s.onFlows op).1 ∧ (s.onFlows op).2.Agrees h (t.onFlows op).2 := by
  unfold Session.onFlows
  rw [hst.policy, hst.permissions, hst.config]
  cases s.policy with
  | none => exact ⟨rfl, hst⟩
  | some p =>
    have hsame := hop { policy := p, permissions := s.permissions, config := s.config }
    dsimp only
    generalize op _ s.registry = x at *
    generalize op _ t.registry = y at *
    cases hsame with
    | error e => exact ⟨rfl, hst⟩
    | ok a alike => exact ⟨rfl, rfl, rfl, rfl, alike⟩

theorem onToken_of_handle {α : Type} {token : String} {op : Handle → SessionOutcome α}
    (ht : Handle.ofToken? token = some h) : s.onToken token op = op h := by
  unfold onToken Handle.ofText
  rw [ht]

/-- **Sessions that agree under a handle answer a call on it alike**, and agree after it. -/
theorem Agrees.call (hst : s.Agrees h t) (hc : c.handle? = some h) :
    (t.call c).1 = (s.call c).1 ∧ (s.call c).2.Agrees h (t.call c).2 := by
  -- the answer is made of what the operation gives
  have hanswer {α : Type} {f : α → Answer} {o o' : SessionOutcome α}
      (ho : o'.1 = o.1 ∧ o.2.Agrees h o'.2) :
      (Answer.ofOutcome f o').1 = (Answer.ofOutcome f o).1 ∧
        (Answer.ofOutcome f o).2.Agrees h (Answer.ofOutcome f o').2 :=
    ⟨congrArg (Except.map f) ho.1, ho.2⟩
  cases c with
  | continueFrom h' start =>
    obtain rfl := Option.some.inj hc
    exact hanswer (hst.onFlows fun c => sameOutcome_continueFrom c hst.registry start)
  | prepareFurther h' first last =>
    obtain rfl := Option.some.inj hc
    exact hanswer (hst.onFlows fun c => sameOutcome_prepareFurther c hst.registry first last)
  | nextFurther h' =>
    obtain rfl := Option.some.inj hc
    exact hanswer (hst.onFlows fun _ => sameOutcome_nextFurther hst.registry)
  | abortFurther h' =>
    obtain rfl := Option.some.inj hc
    exact hanswer (hst.onFlows fun _ => sameOutcome_abortFurther hst.registry)
  | destroy h' =>
    obtain rfl := Option.some.inj hc
    exact hanswer (hst.onFlows fun _ => sameOutcome_discard hst.registry)
  | continueToken token start =>
    refine hanswer ?_
    unfold continueToken
    rw [onToken_of_handle hc, onToken_of_handle hc]
    exact hst.onFlows fun c => sameOutcome_continueFrom c hst.registry start
  | destroyToken token =>
    refine hanswer ?_
    unfold destroyToken
    rw [onToken_of_handle hc, onToken_of_handle hc]
    exact hst.onFlows fun _ => sameOutcome_discard hst.registry
  | _ => exact nomatch hc

/-- Sessions that agree under a handle answer all calls on it alike. -/
theorem Agrees.outcomes {cs : List Call} (hst : s.Agrees h t) (hcs : ∀ c ∈ cs, c.handle? = some h) :
    t.outcomes cs = s.outcomes cs := by
  induction cs generalizing s t with
  | nil => rfl
  | cons c cs ih =>
    obtain ⟨hsame, hafter⟩ := hst.call (hcs c List.mem_cons_self)
    rw [Session.outcomes, Session.outcomes, hsame,
      ih hafter fun d hd => hcs d (List.mem_cons_of_mem c hd)]

/-! ## Runs -/

/-- After `pre`, a run begins no epoch, and every handle that it uses has been given out by then and is
not `h`. -/
structure Spares (s : Session) (h : Handle) (pre cs : List Call) : Prop where
  epoch : (s.after pre).invalidations cs = 0
  handles : ∀ (n : Nat) (hn : n < cs.length), ∀ h' ∈ cs[n].handle?,
    h' ∈ s.issued (pre ++ cs.take n) ∧ h' ≠ h

/-- What comes before the last call of such a run is such a run. -/
theorem Spares.init {pre cs : List Call} (hcs : s.Spares h pre (cs ++ [c])) : s.Spares h pre cs where
  epoch := by
    have hepoch := hcs.epoch
    rw [invalidations_append] at hepoch
    omega
  handles n hn h' hh := by
    have hn' : n < (cs ++ [c]).length := by
      rw [List.length_append]
      omega
    have hlast := hcs.handles n hn' h' (by rwa [List.getElem_append_left hn])
    rwa [List.take_append_of_le_length (Nat.le_of_lt hn)] at hlast

/-- The last call of such a run begins no epoch, and uses another handle. -/
theorem Spares.last {pre cs : List Call} (hcs : s.Spares h pre (cs ++ [c])) :
    ((s.after (pre ++ cs)).call c).2.epoch = (s.after (pre ++ cs)).epoch ∧
      ∀ h', c.handle? = some h' → h' ∈ s.issued (pre ++ cs) ∧ h' ≠ h := by
  refine ⟨?_, fun h' hh => ?_⟩
  · have hepoch := hcs.epoch
    rw [invalidations_append, ← after_append] at hepoch
    by_contra hne
    rw [invalidations, if_neg hne] at hepoch
    omega
  · have hn : cs.length < (cs ++ [c]).length := by simp
    have hlast := hcs.handles cs.length hn h' (by simpa using hh)
    rwa [List.take_left' rfl] at hlast

theorem Initial.generation (h₀ : Initial s) (i : Nat) : s.registry.generation i = 0 := by
  obtain ⟨config, rfl | ⟨p, rfl⟩⟩ := h₀
  · exact Registry.generation_empty i
  · exact Registry.generation_empty i

/-- **Such a run leaves what `h` names**, and does not give up its slot. -/
theorem Spares.agrees {s₀ : Session} (h₀ : s₀.Initial) {pre cs : List Call}
    (hv : resolve (s₀.after pre).registry h = .ok v) (hfew : s₀.frees h.slot.toNat pre < 2 ^ 32)
    (hcs : s₀.Spares h pre cs) :
    (s₀.after pre).Agrees h (s₀.after (pre ++ cs)) ∧
      s₀.frees h.slot.toNat (pre ++ cs) = s₀.frees h.slot.toNat pre := by
  induction cs using List.reverseRecOn with
  | nil =>
    rw [List.append_nil]
    exact ⟨.refl _ h, rfl⟩
  | append_singleton cs c ih =>
    obtain ⟨hagrees, hfrees⟩ := ih hcs.init
    obtain ⟨hepoch, hother⟩ := hcs.last
    have hsound : Registry.Sound (s₀.after (pre ++ cs)).registry := sound_after h₀.current.sound
    have hv' := hagrees.registry.resolve.trans hv
    have hplace (h' : Handle) (hh : c.handle? = some h') :
        ¬ (h'.slot = h.slot ∧ h'.generation = h.generation) := by
      rintro ⟨hslot, hgen⟩
      obtain ⟨hissued, hne⟩ := hother h' hh
      have hcount : (s₀.registry.generation h'.slot.toNat).toNat +
          s₀.frees h'.slot.toNat (pre ++ cs) < 2 ^ 32 := by
        rw [h₀.generation, hslot, hfrees]
        exact (Nat.zero_add _).symm ▸ hfew
      exact hne ((accounts_of_issued h₀.current.sound hissued hcount).eq_of_place
        (Registry.resolve_eq_ok_iff_own?.mp hv').1 hslot hgen)
    have hnext := (call_effect _ c).agrees hsound hv' hepoch hplace
    obtain ⟨hheld, -⟩ := Registry.resolve_eq_ok_iff.mp (hnext.registry.resolve.trans hv')
    rw [← List.append_assoc, after_append, frees_append, hfrees]
    refine ⟨hagrees.trans hnext, ?_⟩
    rw [frees, frees, Registry.occupied_of_held hheld]
    simp

/-- **Flow sessions behind different handles do not interfere.** Let a handle resolve after some run, in
which its slot has been given up fewer than `2 ^ 32` times. Over any run from there on that begins no
epoch, and uses only handles that have been given out by then and are not this one, the handle keeps its
flow session: index, graph, kind, filter and enumeration. And calls on it are answered afterwards as they
would have been without that run. -/
theorem spared {s₀ : Session} (h₀ : s₀.Initial) {pre cs : List Call} {h : Handle} {v : FlowSession}
    (hv : resolve (s₀.after pre).registry h = .ok v) (hfew : s₀.frees h.slot.toNat pre < 2 ^ 32)
    (hcs : s₀.Spares h pre cs) :
    resolve (s₀.after (pre ++ cs)).registry h = .ok v ∧
      ∀ later, (∀ c ∈ later, c.handle? = some h) →
        (s₀.after (pre ++ cs)).outcomes later = (s₀.after pre).outcomes later := by
  obtain ⟨hagrees, -⟩ := hcs.agrees h₀ hv hfew
  exact ⟨hagrees.registry.resolve.trans hv, fun later hlater => hagrees.outcomes hlater⟩

/-- An analysis at `a`, whose paths to `c` are to be enumerated, and another one at `b`. -/
def sampleBoth : List Call :=
  [.loadPermissions .sample, .analyzeReach { direction := .fromStart, start := "a" },
    .prepareFurther ⟨0, 0, 1⟩ "a" "c", .analyzeHops { direction := .outward, start := "b" }]

/-- The second analysis is continued and destroyed, and its slot is used again. -/
def sampleOther : List Call :=
  [.continueFrom ⟨1, 0, 1⟩ "c", .destroy ⟨1, 0, 1⟩, .purgeStale,
    .analyzeReach { direction := .toStart, start := "c" }, .prepareFurther ⟨1, 1, 1⟩ "c" "a",
    .nextFurther ⟨1, 1, 1⟩, .destroy ⟨1, 0, 1⟩]

/-- The first path from `a` to `c` is the same before and after. -/
theorem sample_spared :
    sample.frees 0 sampleBoth < 2 ^ 32 ∧ sample.Spares ⟨0, 0, 1⟩ sampleBoth sampleOther ∧
      ∃ v, resolve (sample.after sampleBoth).registry ⟨0, 0, 1⟩ = .ok v ∧
        resolve (sample.after (sampleBoth ++ sampleOther)).registry ⟨0, 0, 1⟩ = .ok v ∧
        (sample.after (sampleBoth ++ sampleOther)).outcomes [.nextFurther ⟨0, 0, 1⟩] =
          (sample.after sampleBoth).outcomes [.nextFurther ⟨0, 0, 1⟩] := by
  have hinit : sample.Initial := ⟨{}, Or.inr ⟨.sample, rfl⟩⟩
  have hfew : sample.frees 0 sampleBoth < 2 ^ 32 := by decide +kernel
  have hspares : sample.Spares ⟨0, 0, 1⟩ sampleBoth sampleOther :=
    { epoch := by decide +kernel
      handles := by decide +kernel }
  have hresolves : (resolve (sample.after sampleBoth).registry ⟨0, 0, 1⟩).isOk = true := by
    decide +kernel
  obtain ⟨v, hv⟩ := exists_ok hresolves
  obtain ⟨hkept, hlater⟩ := spared hinit hv hfew hspares
  exact ⟨hfew, hspares, v, hv, hkept, hlater _ fun c hc => by simp_all [Call.handle?]⟩

example :
    ((sample.after (sampleBoth ++ sampleOther)).nextFurther ⟨0, 0, 1⟩).1.toOption.map
        (List.map FlowResult.types) = some [[⟨"a"⟩, ⟨"b"⟩, ⟨"c"⟩]] := by
  decide +kernel

end Session

end PolicyReach
