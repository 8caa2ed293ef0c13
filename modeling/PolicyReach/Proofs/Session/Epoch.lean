import Mathlib.Algebra.Group.Nat.Defs
import PolicyReach.Proofs.Flow.Relation
import PolicyReach.Proofs.Session.Outcomes

/-!
# Epochs, and what handles name

A session keeps the flows it has scanned behind handles, and must not answer from them once the
policy, a boolean or the permission map is another. Every such change begins a new epoch, and a
handle names nothing outside the epoch it was issued in.

* `Session.Current`: the flow sessions of the current epoch hold the flows of the policy as it is;
* `Effect.current`: every call keeps it, as long as the epoch does not wrap around;
* `after_current`, `epoch_after`: the epoch counts the calls that have begun one
  (`Session.invalidations`);
* **`handles_current`**: over a whole run, a handle that resolves names the flows of the policy as it
  is, no handle outlives a change, and a call that changes nothing leaves every handle as it is.
-/

namespace PolicyReach

open Registry (resolve)

/-- A flow session keeps its index through all that calls make of it. -/
theorem FlowSession.Step.index {config : Config} {c : Call} {v v' : FlowSession}
    (h : v.Step config c v') : v'.index = v.index := by
  cases h <;> rfl

namespace Session

/-! ## Calls that change something, and calls that do not -/

/-- The number of calls of a run that begin a new epoch. -/
def invalidations (s : Session) : List Call → Nat
  | [] => 0
  | c :: cs =>
    (if (s.call c).2.epoch = s.epoch then 0 else 1) + invalidations (s.call c).2 cs

/-- The call puts a policy in place, or changes the policy or one of its booleans, or the permission
map. -/
def Alters (s : Session) (c : Call) : Prop :=
  (∃ p, c = .replacePolicy p) ∨ (∃ file p, c = .loadPolicy file ∧ Policy.ofFile file = .ok p) ∨
    (s.call c).2.policy ≠ s.policy ∨ (s.call c).2.permissions ≠ s.permissions

/-- The call fails, sets a boolean to the value it has, or loads the permission map that is
loaded. -/
def ChangesNothing (s : Session) (c : Call) : Prop :=
  (∃ e, (s.call c).1 = .error e) ∨
    (∃ name value p, c = .setBoolean name value ∧ s.policy = some p ∧
      p.boolean? name = some value) ∨
    ∃ m, c.Loads m ∧ s.permissions = some m

/-- The flow session holds all flows of the policy that its criteria admit, under the booleans and
the permission map as they are. -/
def UpToDate (s : Session) (v : FlowSession) : Prop :=
  ∃ p m, s.policy = some p ∧ s.permissions = some m ∧ v.index = p.flows m v.index.criteria

/-- **The flow sessions of the current epoch are up to date**, and none is of a later epoch. -/
structure Current (s : Session) : Prop where
  sound : Registry.Sound s.registry
  fingerprint : s.fingerprint = s.permissions.map PermissionMap.fingerprint
  epoch_le : Registry.All (fun e => e.epoch.toNat ≤ s.epoch.toNat) s.registry
  upToDate : Registry.All (fun e => e.epoch = s.epoch → s.UpToDate e.value) s.registry

variable {s s' : Session} {c : Call}

theorem Initial.current (h : Initial s) : s.Current := by
  obtain ⟨config, rfl | ⟨p, rfl⟩⟩ := h
  · exact ⟨Registry.sound_empty, rfl, Registry.all_empty _, Registry.all_empty _⟩
  · exact ⟨Registry.sound_empty, rfl, Registry.all_empty _, Registry.all_empty _⟩

theorem Initial.epoch (h : Initial s) : s.epoch.toNat = 0 := by
  obtain ⟨config, rfl | ⟨p, rfl⟩⟩ := h
  · rfl
  · rfl

/-! ## One call -/

/-- A call begins one new epoch, or keeps the policy and the permission map. -/
theorem Effect.epoch_cases (hs : Registry.Sound s.registry) (he : Effect s c s') :
    s'.epoch = s.epoch + 1 ∨
      s'.epoch = s.epoch ∧ s'.policy = s.policy ∧ s'.permissions = s.permissions := by
  cases he with
  | quiet memo => exact Or.inr ⟨rfl, rfl, rfl⟩
  | policyChanged p => exact Or.inl rfl
  | mapChanged m loads => exact Or.inl rfl
  | invalidated => exact Or.inl rfl
  | purged => exact Or.inr ⟨rfl, rfl, rfl⟩
  | begun policy permissions scope selected registered =>
    obtain ⟨-, hepoch, -⟩ := Registry.register_spec hs registered
    exact Or.inr ⟨hepoch, rfl, rfl⟩
  | stepped about resolved step => exact Or.inr ⟨rfl, rfl, rfl⟩
  | discarded about destroyed =>
    exact Or.inr ⟨(Registry.destroy_spec destroyed).1, rfl, rfl⟩

theorem epoch_succ_ne (n : UInt64) : n + 1 ≠ n := fun h => by
  have hval := congrArg UInt64.toNat h
  rw [UInt64.toNat_add] at hval
  have hlt := n.toNat_lt
  have hone : (1 : UInt64).toNat = 1 := rfl
  omega

theorem toNat_succ_of_lt {n : UInt64} (h : n.toNat + 1 < 2 ^ 64) :
    (n + 1).toNat = n.toNat + 1 := by
  rw [UInt64.toNat_add]
  exact Nat.mod_eq_of_lt h

/-- A new epoch leaves nothing of the epoch it begins, unless the count of epochs wraps around. -/
theorem Current.invalidateAll (hs : s.Current) (hlt : s.epoch.toNat + 1 < 2 ^ 64)
    {p : Option Policy} {m : Option PermissionMap} {f : Option String}
    (hf : f = m.map PermissionMap.fingerprint) :
    (invalidateAll { s with policy := p, permissions := m, fingerprint := f }).Current := by
  have hnext : (s.epoch + 1).toNat = s.epoch.toNat + 1 := toNat_succ_of_lt hlt
  refine ⟨hs.sound.invalidateAll, hf, fun i slot e hi he => ?_, fun i slot e hi he heq => ?_⟩
  · have hle := hs.epoch_le i slot e hi he
    show e.epoch.toNat ≤ (s.epoch + 1).toNat
    omega
  · have hle := hs.epoch_le i slot e hi he
    have hepoch : e.epoch.toNat = (s.epoch + 1).toNat := congrArg UInt64.toNat heq
    omega

/-- **Every call keeps the flow sessions up to date**, as long as the epoch does not wrap around. -/
theorem Effect.current (hs : s.Current) (he : Effect s c s')
    (hlt : s'.epoch ≠ s.epoch → s.epoch.toNat + 1 < 2 ^ 64) : s'.Current := by
  have hsound := he.sound hs.sound
  cases he with
  | quiet memo => exact ⟨hsound, hs.fingerprint, hs.epoch_le, hs.upToDate⟩
  | policyChanged p => exact hs.invalidateAll (hlt (epoch_succ_ne s.epoch)) hs.fingerprint
  | mapChanged m loads => exact hs.invalidateAll (hlt (epoch_succ_ne s.epoch)) rfl
  | invalidated => exact hs.invalidateAll (hlt (epoch_succ_ne s.epoch)) hs.fingerprint
  | purged =>
    exact ⟨hsound, hs.fingerprint, hs.epoch_le.purgeStale, hs.upToDate.purgeStale⟩
  | @begun p m criteria kind filter start graph h registry policy permissions scope selected
      registered =>
    obtain ⟨-, hepoch, -⟩ := Registry.register_spec hs.sound registered
    have hindex : s.UpToDate { index := p.flows m criteria, graph, kind, filter } := by
      refine ⟨p, m, policy, permissions, ?_⟩
      show p.flows m criteria = p.flows m (p.flows m criteria).criteria
      rw [Policy.flows_criteria]
    refine ⟨hsound, hs.fingerprint, ?_, ?_⟩
    · unfold Session.epoch
      rw [hepoch]
      exact hs.epoch_le.register hs.sound registered (Nat.le_refl _)
    · unfold Session.epoch
      rw [hepoch]
      exact hs.upToDate.register hs.sound registered fun _ => hindex
  | @stepped h v v' about resolved step =>
    obtain ⟨hheld, -⟩ := Registry.resolve_eq_ok_iff.mp resolved
    obtain ⟨p, m, hp, hm, hv⟩ := hs.upToDate.of_held hheld rfl
    refine ⟨hsound, hs.fingerprint, hs.epoch_le.replace hheld (Nat.le_refl _),
      hs.upToDate.replace hheld fun _ => ⟨p, m, hp, hm, ?_⟩⟩
    rw [step.index]
    exact hv
  | discarded about destroyed =>
    have hepoch := (Registry.destroy_spec destroyed).1
    refine ⟨hsound, hs.fingerprint, ?_, ?_⟩
    · unfold Session.epoch
      rw [hepoch]
      exact hs.epoch_le.destroy destroyed
    · unfold Session.epoch
      rw [hepoch]
      exact hs.upToDate.destroy destroyed

/-! ## Runs -/

theorem epoch_call (hs : s.Current)
    (hlt : (s.call c).2.epoch ≠ s.epoch → s.epoch.toNat + 1 < 2 ^ 64) :
    (s.call c).2.epoch.toNat =
      s.epoch.toNat + if (s.call c).2.epoch = s.epoch then 0 else 1 := by
  rcases (call_effect s c).epoch_cases hs.sound with h | ⟨h, -⟩
  · have hne : (s.call c).2.epoch ≠ s.epoch := h ▸ epoch_succ_ne s.epoch
    rw [if_neg hne, h]
    exact toNat_succ_of_lt (hlt hne)
  · rw [if_pos h, h, Nat.add_zero]

/-- The epoch counts the invalidations, as a word. -/
theorem epoch_after (hs : Registry.Sound s.registry) (cs : List Call) :
    (s.after cs).epoch = s.epoch + UInt64.ofNat (s.invalidations cs) := by
  induction cs generalizing s with
  | nil => exact (UInt64.add_zero _).symm
  | cons c cs ih =>
    have heffect := call_effect s c
    rw [after_cons, ih (heffect.sound hs), invalidations, UInt64.ofNat_add, ← UInt64.add_assoc]
    congr 1
    rcases heffect.epoch_cases hs with h | ⟨h, -⟩
    · rw [if_neg (h ▸ epoch_succ_ne s.epoch), h]
      rfl
    · rw [if_pos h, h]
      exact (UInt64.add_zero _).symm

/-- A run after which the epoch is what it was has begun no other one, or very many. -/
theorem invalidations_eq_zero (hs : Registry.Sound s.registry) {cs : List Call}
    (hlt : s.invalidations cs < 2 ^ 64) (hepoch : (s.after cs).epoch = s.epoch) :
    s.invalidations cs = 0 := by
  have hcount := epoch_after hs cs
  rw [hepoch] at hcount
  have hzero : UInt64.ofNat (s.invalidations cs) = 0 := by
    rw [← UInt64.add_right_inj s.epoch, ← hcount, UInt64.add_zero]
  have hval := congrArg UInt64.toNat hzero
  rwa [UInt64.toNat_ofNat', Nat.mod_eq_of_lt hlt] at hval

/-- **A run keeps the flow sessions up to date, and the epoch counts its invalidations.** -/
theorem after_current {cs : List Call} (hs : s.Current)
    (hlt : s.epoch.toNat + s.invalidations cs < 2 ^ 64) :
    (s.after cs).Current ∧ (s.after cs).epoch.toNat = s.epoch.toNat + s.invalidations cs := by
  induction cs generalizing s with
  | nil => exact ⟨hs, rfl⟩
  | cons c cs ih =>
    rw [invalidations] at hlt
    have hstep : (s.call c).2.epoch ≠ s.epoch → s.epoch.toNat + 1 < 2 ^ 64 := by
      intro hne
      rw [if_neg hne] at hlt
      omega
    have hepoch := epoch_call hs hstep
    obtain ⟨hcur, hafter⟩ := ih ((call_effect s c).current hs hstep) (by omega)
    refine ⟨hcur, ?_⟩
    rw [after_cons, hafter, invalidations, hepoch]
    omega

theorem invalidations_append (s : Session) (cs ds : List Call) :
    s.invalidations (cs ++ ds) = s.invalidations cs + (s.after cs).invalidations ds := by
  induction cs generalizing s with
  | nil => exact (Nat.zero_add _).symm
  | cons c cs ih =>
    simp only [List.cons_append, invalidations, after_cons, ih, Nat.add_assoc]

/-- A run that begins no epoch keeps the policy and the permission map. -/
theorem policy_after (hs : Registry.Sound s.registry) {cs : List Call}
    (hepoch : s.invalidations cs = 0) :
    (s.after cs).policy = s.policy ∧ (s.after cs).permissions = s.permissions := by
  induction cs generalizing s with
  | nil => exact ⟨rfl, rfl⟩
  | cons c cs ih =>
    obtain ⟨hone, hrest⟩ := Nat.add_eq_zero_iff.mp hepoch
    have heffect := call_effect s c
    rcases heffect.epoch_cases hs with hnext | ⟨-, hpolicy, hpermissions⟩
    · rw [if_neg (hnext ▸ epoch_succ_ne s.epoch)] at hone
      cases hone
    · obtain ⟨hpolicy', hpermissions'⟩ := ih (heffect.sound hs) hrest
      exact ⟨hpolicy'.trans hpolicy, hpermissions'.trans hpermissions⟩

theorem issued_cons (s : Session) (cs : List Call) :
    s.issued (c :: cs) =
      ((s.call c).1.toOption.bind Answer.handle?).toList ++ (s.call c).2.issued cs := by
  unfold issued
  rw [outcomes, List.filterMap_cons]
  cases (s.call c).1.toOption.bind Answer.handle? <;> rfl

/-- A handle is issued in the epoch of its time, so its epoch is none to come. -/
theorem epoch_of_issued {cs : List Call} (hs : s.Current)
    (hlt : s.epoch.toNat + s.invalidations cs < 2 ^ 64) {h : Handle} (hh : h ∈ s.issued cs) :
    h.epoch.toNat ≤ (s.after cs).epoch.toNat := by
  induction cs generalizing s with
  | nil => exact nomatch hh
  | cons c cs ih =>
    obtain ⟨-, hafter⟩ := after_current hs hlt
    rw [invalidations] at hlt
    have hstep : (s.call c).2.epoch ≠ s.epoch → s.epoch.toNat + 1 < 2 ^ 64 := by
      intro hne
      rw [if_neg hne] at hlt
      omega
    have hepoch := epoch_call hs hstep
    rw [issued_cons, List.mem_append, Option.mem_toList, ← gives_iff] at hh
    rcases hh with ⟨a, ha, hh⟩ | hh
    · obtain ⟨v, registry, hreg, -⟩ := call_registers ha hh
      have hissue : h.epoch = s.epoch := (Registry.register_spec hs.sound hreg).1
      rw [hissue, hafter]
      omega
    · rw [after_cons]
      exact ih ((call_effect s c).current hs hstep) (by omega) hh

/-! ## What the kinds of calls do -/

theorem epoch_of_alters (hs : s.Current) (hc : s.Alters c) :
    (s.call c).2.epoch = s.epoch + 1 := by
  rcases hc with ⟨p, rfl⟩ | ⟨file, p, rfl, hp⟩ | hne | hne
  · rfl
  · show (s.loadPolicy file).2.epoch = _
    unfold loadPolicy
    rw [hp]
    rfl
  · rcases (call_effect s c).epoch_cases hs.sound with h | ⟨-, h, -⟩
    · exact h
    · exact absurd h hne
  · rcases (call_effect s c).epoch_cases hs.sound with h | ⟨-, -, h⟩
    · exact h
    · exact absurd h hne

theorem loadPermissions_loaded (hs : s.Current) {m : PermissionMap} (hm : s.permissions = some m) :
    (s.loadPermissions m).2 = s := by
  have hf : some m.fingerprint = s.fingerprint := by
    rw [hs.fingerprint, hm]
    rfl
  unfold loadPermissions
  rw [if_pos hf]

theorem registry_of_changesNothing (hs : s.Current) (hc : s.ChangesNothing c) :
    (s.call c).2.registry = s.registry := by
  rcases hc with ⟨e, he⟩ | ⟨name, value, p, rfl, hp, hb⟩ | ⟨m, rfl | ⟨file, rfl, hfile⟩, hm⟩
  · obtain ⟨memo, hmemo⟩ := call_error he
    rw [hmemo]
  · show (s.setBoolean name value).2.registry = s.registry
    unfold setBoolean
    simp only [hp, hb, if_true]
  · exact congrArg Session.registry (loadPermissions_loaded hs hm)
  · show (s.loadPermissionsFile file).2.registry = s.registry
    unfold loadPermissionsFile
    rw [hfile]
    exact congrArg Session.registry (loadPermissions_loaded hs hm)

/-- **A handle that resolves is never out of date.** In every state that a run of calls reaches, with
fewer than `2 ^ 64` invalidations, a handle that resolves names the flows of the policy as it is; a
handle issued before a call that alters the policy, a boolean or the permission map never resolves
after it; and a call that changes nothing leaves the epoch and everything behind the handles. -/
theorem handles_current {s₀ : Session} (h₀ : s₀.Initial) (cs : List Call)
    (hlt : s₀.invalidations cs < 2 ^ 64) :
    (∀ h v, resolve (s₀.after cs).registry h = .ok v → (s₀.after cs).UpToDate v) ∧
      (∀ pre c post, cs = pre ++ c :: post → (s₀.after pre).Alters c →
        ∀ h ∈ s₀.issued pre, ∀ v, resolve (s₀.after cs).registry h ≠ .ok v) ∧
      ∀ c, (s₀.after cs).ChangesNothing c →
        ((s₀.after cs).call c).2.registry = (s₀.after cs).registry := by
  have hcur₀ := h₀.current
  have hzero := h₀.epoch
  obtain ⟨hcur, -⟩ := after_current hcur₀ (by omega : s₀.epoch.toNat + s₀.invalidations cs < _)
  refine ⟨fun h v hv => ?_, ?_, fun c hc => registry_of_changesNothing hcur hc⟩
  · obtain ⟨hheld, -⟩ := Registry.resolve_eq_ok_iff.mp hv
    exact hcur.upToDate.of_held hheld rfl
  · rintro pre c post rfl hc h hh v hv
    obtain ⟨-, hepoch⟩ := Registry.resolve_eq_ok_iff.mp hv
    have hcount := invalidations_append s₀ pre (c :: post)
    have hpre : s₀.epoch.toNat + s₀.invalidations pre < 2 ^ 64 := by omega
    obtain ⟨hmid, hmidEpoch⟩ := after_current hcur₀ hpre
    obtain ⟨-, hlast⟩ := after_current hmid
      (by omega : (s₀.after pre).epoch.toNat + (s₀.after pre).invalidations (c :: post) < _)
    have hbump := epoch_of_alters hmid hc
    rw [invalidations, if_neg (hbump ▸ epoch_succ_ne _)] at hlast
    have hissued := epoch_of_issued hcur₀ hpre hh
    rw [← after_append] at hlast
    have : h.epoch.toNat = (s₀.after (pre ++ c :: post)).epoch.toNat := congrArg UInt64.toNat hepoch
    omega

/-- A session over `Policy.sample`. -/
def sample : Session := ofPolicy {} .sample

/-- An analysis of the flows out of `a`. -/
def sampleRun : List Call :=
  [.loadPermissions .sample, .analyzeHops { direction := .outward, start := "a" }]

/-- The handle of the analysis at `a` ends when the boolean `net` is switched off. -/
theorem sample_handle_ends :
    sample.invalidations (sampleRun ++ [.setBoolean "net" false]) < 2 ^ 64 ∧
      ⟨0, 0, 1⟩ ∈ sample.issued sampleRun ∧
      ∀ v, resolve (sample.after (sampleRun ++ [.setBoolean "net" false])).registry ⟨0, 0, 1⟩ ≠
        .ok v := by
  have hlt : sample.invalidations (sampleRun ++ [.setBoolean "net" false]) < 2 ^ 64 := by
    decide +kernel
  have hissued : ⟨0, 0, 1⟩ ∈ sample.issued sampleRun := by decide +kernel
  have hpolicy : ((sample.after sampleRun).call (.setBoolean "net" false)).2.policy ≠
      (sample.after sampleRun).policy := by
    decide +kernel
  have hinit : sample.Initial := ⟨{}, Or.inr ⟨.sample, rfl⟩⟩
  obtain ⟨-, hends, -⟩ := handles_current hinit _ hlt
  have hgone := hends sampleRun _ [] rfl (Or.inr (Or.inr (Or.inl hpolicy))) _ hissued
  exact ⟨hlt, hissued, hgone⟩

end Session

end PolicyReach
