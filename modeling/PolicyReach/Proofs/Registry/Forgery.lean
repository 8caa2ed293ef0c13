import Mathlib.Data.List.Induction
import PolicyReach.Proofs.Registry.InPlace
import PolicyReach.Proofs.Registry.Isolation
import PolicyReach.Proofs.Registry.Release

/-!
# Handles that nobody was given

Handles come back as texts, so any three numbers may be handed in. To look a value up, all three must be
those of the handle that it was registered under; to destroy it, its slot and its generation are enough.

Model: `HandedOut ops t` says that the run `ops` was given `t` for a value which has not been given up since.

Results:
* `handedOut_iff_own?`: these are the handles that name a value in their own epoch, so one for each place
  that is held (`exists_entry?_iff`, `HandedOut.epoch_eq`);
* **`destroy_by_place`**: exactly which handles destroy what, and that all others are unknown and change
  nothing;
* `forged_destroys`: a handle that nobody was given, and that does not resolve, destroys a value.
-/

namespace PolicyReach

open Procedure

namespace Registry

variable {α : Type} {r r' : Registry α} {h t : Handle} {v : α} {op : Op α} {reply : Reply α}
  {ops : List (Op α)}

/-- The run has been given the handle for a value, and has not given up the value's slot since. -/
def HandedOut (ops : List (Op α)) (t : Handle) : Prop :=
  ∃ pre v r' post, ops = pre ++ .register v :: post ∧
    ((empty : Registry α).after pre).register v = some (t, r') ∧ r'.frees t.slot.toNat post = 0

/-- The handle stands for the place of another one, whatever its epoch. -/
def SamePlace (h t : Handle) : Prop := h.slot = t.slot ∧ h.generation = t.generation

/-! ## One operation -/

/-- What a handle names stays named, in this epoch and later, unless its slot is given up. -/
theorem Performs.exists_own? (hr : r.Sound) (hop : r.Performs op reply r') (hv : r.own? t = some v)
    (hkept : r'.occupied t.slot.toNat = true) : ∃ w, r'.own? t = some w := by
  cases hw : r'.own? t with
  | some w => exact ⟨w, rfl⟩
  | none =>
    rw [hop.occupied_of_lost hr hv hw] at hkept
    exact nomatch hkept

/-- What a handle names after an operation it has named before, or it is given out by the operation. -/
theorem Performs.own?_origin (hr : r.Sound) (hop : r.Performs op reply r')
    (hv : r'.own? t = some v) :
    (∃ w, r.own? t = some w) ∨ ∃ w, op = .register w ∧ r.register w = some (t, r') := by
  cases hop with
  | @registered w h r' hreg =>
    rcases own?_of_register hr hreg hv with hold | ⟨rfl, rfl⟩
    · exact Or.inl ⟨v, hold⟩
    · exact Or.inr ⟨_, rfl, hreg⟩
  | full | found | notFound | notDestroyed | invalidated => exact Or.inl ⟨v, hv⟩
  | @modified h w f resolves =>
    rw [own?_replace resolves] at hv
    split at hv
    · rename_i hsame
      exact Or.inl ⟨w, hsame ▸ (resolve_eq_ok_iff_own?.mp resolves).1⟩
    · exact Or.inl ⟨v, hv⟩
  | destroyed destroys =>
    rw [own?_destroy destroys] at hv
    split at hv
    · exact nomatch hv
    · exact Or.inl ⟨v, hv⟩
  | purged => exact Or.inl ⟨v, own?_of_purgeStale hv⟩

/-! ## Runs -/

theorem vacates_of_own? (hv : (r.perform op).2.own? t = some v) :
    r.vacates op t.slot.toNat = false := by
  unfold vacates
  rw [occupied_of_held (own?_eq_some_iff.mp hv)]
  exact Bool.and_false _

/-- A value stays under its handle over a run that does not give up its slot. -/
theorem exists_own?_after (hr : r.Sound) (hv : r.own? t = some v)
    (hfrees : r.frees t.slot.toNat ops = 0) : ∃ w, (r.after ops).own? t = some w := by
  induction ops generalizing r v with
  | nil => exact ⟨v, hv⟩
  | cons op ops ih =>
    rw [frees, Nat.add_eq_zero_iff, Bool.toNat_eq_zero, vacates,
      occupied_of_held (own?_eq_some_iff.mp hv), Bool.true_and, Bool.not_eq_false'] at hfrees
    obtain ⟨hkept, hfrees⟩ := hfrees
    obtain ⟨w, hw⟩ := (r.performs op).exists_own? hr hv hkept
    exact ih ((r.performs op).sound hr) hw hfrees

/-- **The handles given out for what is held are those that name it in their own epoch.** -/
theorem handedOut_iff_own? :
    HandedOut ops t ↔ ∃ v, ((empty : Registry α).after ops).own? t = some v := by
  constructor
  · rintro ⟨pre, v, r', post, rfl, hreg, hfrees⟩
    have hsound : ((empty : Registry α).after pre).Sound := after_sound sound_empty pre
    have hperform : (((empty : Registry α).after pre).perform (.register v)).2 = r' := by
      simp only [perform, hreg]
    rw [after_append, after_cons, hperform]
    exact exists_own?_after (hsound.register hreg) (own?_register_self hsound hreg) hfrees
  · induction ops using List.reverseRecOn with
    | nil =>
      rintro ⟨v, hv⟩
      obtain ⟨s, hs, -⟩ := own?_iff_slot.mp hv
      simp [empty] at hs
    | append_singleton ops op ih =>
      rintro ⟨v, hv⟩
      have hsound : ((empty : Registry α).after ops).Sound := after_sound sound_empty ops
      rw [after_append, after_cons, after_nil] at hv
      rcases (performs _ op).own?_origin hsound hv with hold | ⟨w, rfl, hreg⟩
      · obtain ⟨pre, w, r', post, rfl, hreg, hfrees⟩ := ih hold
        refine ⟨pre, w, r', post ++ [op], by simp, hreg, ?_⟩
        have hperform : (((empty : Registry α).after pre).perform (.register w)).2 = r' := by
          simp only [perform, hreg]
        rw [after_append, after_cons, hperform] at hv
        rw [frees_append, hfrees, frees, frees, vacates_of_own? hv]
        rfl
      · exact ⟨ops, w, _, [], rfl, hreg, rfl⟩

/-! ## Destroying -/

/-- What is held in a place is held under one handle. -/
theorem exists_own?_of_entry? {e : Entry α} (he : r.entry? h = some e) :
    ∃ t, SamePlace h t ∧ r.own? t = some e.value :=
  ⟨⟨h.slot, h.generation, e.epoch⟩, ⟨rfl, rfl⟩, own?_eq_some_iff.mpr he⟩

theorem SamePlace.entry?_eq (hp : SamePlace h t) (r : Registry α) : r.entry? h = r.entry? t := by
  unfold entry?
  rw [hp.1, hp.2]

/-- Destroying takes what is held in the place of a handle, and nothing else. -/
theorem own?_destroy_place (hp : SamePlace h t) (hv : r.own? t = some v)
    (hd : r.destroy h = .ok (v, r')) (t' : Handle) :
    r'.own? t' = if t' = t then none else r.own? t' := by
  rw [own?_destroy hd]
  by_cases hsame : t' = t
  · subst hsame
    rw [if_pos ⟨hp.1.symm, hp.2.symm⟩, if_pos rfl]
  · rw [if_neg hsame]
    split
    · rename_i hplace
      -- another epoch in the same place: nothing is named so
      cases hw : r.own? t' with
      | none => rfl
      | some w => exact absurd (eq_of_own? hw hv (hplace.1.trans hp.1)) hsame
    · rfl

/-- A handle destroys something exactly if something is held in its place. -/
theorem exists_destroy_iff : (∃ v r', r.destroy h = .ok (v, r')) ↔ ∃ e, r.entry? h = some e := by
  constructor
  · rintro ⟨v, r', hd⟩
    obtain ⟨-, -, ⟨s, e, hs, hg, he, -⟩, -⟩ := destroy_spec hd
    exact ⟨e, entry?_eq_some_iff.mpr ⟨s, hs, hg, he⟩⟩
  · rintro ⟨e, he⟩
    exact ⟨_, exists_destroy he⟩

/-- Something is held in the place of a handle exactly if one for that place is handed out for it. -/
theorem exists_entry?_iff :
    (∃ e, entry? ((empty : Registry α).after ops) h = some e) ↔ ∃ t, HandedOut ops t ∧ SamePlace h t := by
  constructor
  · rintro ⟨e, he⟩
    obtain ⟨t, hp, hown⟩ := exists_own?_of_entry? he
    exact ⟨t, handedOut_iff_own?.mpr ⟨_, hown⟩, hp⟩
  · rintro ⟨t, ht, hp⟩
    obtain ⟨v, hown⟩ := handedOut_iff_own?.mp ht
    exact ⟨_, (hp.entry?_eq _).trans (own?_eq_some_iff.mp hown)⟩

/-- Two handles for one place are handed out for what is held only if they are the same. -/
theorem HandedOut.epoch_eq (hh : HandedOut ops h) (ht : HandedOut ops t) (hp : SamePlace h t) :
    h.epoch = t.epoch := by
  obtain ⟨v, hv⟩ := handedOut_iff_own?.mp ht
  obtain ⟨w, hw⟩ := handedOut_iff_own?.mp hh
  exact congrArg Handle.epoch (eq_of_own? hw hv hp.1)

theorem SamePlace.eq_of_epoch (hp : SamePlace h t) (hepoch : h.epoch = t.epoch) : h = t := by
  cases h
  cases t
  exact congr (congrArg₂ Handle.mk hp.1 hp.2) hepoch

/-- **A value is destroyed by every handle for its place, whatever the epoch of the handle.** After any run

* a handle destroys something exactly if its slot and generation are those of a handle which has been given
  out for a value that is held;
* what it destroys is the value held under that handle, and what any other handle names is left;
* every other handle is unknown, and handing it in changes nothing;
* so a handle is kept from destroying what it has not been given out for exactly if no handle that differs
  from it in the epoch alone has been given out for a value that is held. -/
theorem destroy_by_place (ops : List (Op α)) (h : Handle) :
    let r := (empty : Registry α).after ops
    ((∃ v r', r.destroy h = .ok (v, r')) ↔ ∃ t, HandedOut ops t ∧ SamePlace h t) ∧
    (∀ v r', r.destroy h = .ok (v, r') → ∃ t, HandedOut ops t ∧ SamePlace h t ∧ r.own? t = some v ∧
      ∀ t', r'.own? t' = if t' = t then none else r.own? t') ∧
    ((∀ t, HandedOut ops t → ¬ SamePlace h t) →
      exec (InPlace.destroy h) r = (.error (.invalidHandle h .unknown), r)) ∧
    (((∃ v r', r.destroy h = .ok (v, r')) → HandedOut ops h) ↔
      ∀ t, HandedOut ops t → SamePlace h t → h.epoch = t.epoch) := by
  intro r
  have hdestroys : (∃ v r', r.destroy h = .ok (v, r')) ↔ ∃ t, HandedOut ops t ∧ SamePlace h t :=
    exists_destroy_iff.trans exists_entry?_iff
  refine ⟨hdestroys, fun v r' hd => ?_, fun hnone => ?_, ⟨fun hown t ht hp => ?_, fun hepoch hd => ?_⟩⟩
  · obtain ⟨-, -, ⟨s, e, hs, hg, he, rfl, -⟩, -⟩ := destroy_spec hd
    obtain ⟨t, hp, hown⟩ := exists_own?_of_entry? (entry?_eq_some_iff.mpr ⟨s, hs, hg, he⟩)
    exact ⟨t, handedOut_iff_own?.mpr ⟨_, hown⟩, hp, hown, own?_destroy_place hp hown hd⟩
  · have hfree : r.entry? h = none := by
      rw [Option.eq_none_iff_forall_not_mem]
      intro e he
      obtain ⟨t, ht, hp⟩ := exists_entry?_iff.mp ⟨e, he⟩
      exact hnone t ht hp
    rw [InPlace.exec_destroy, (unknown_of_entry?_eq_none hfree).2]
    rfl
  · exact (hown (hdestroys.mpr ⟨t, ht, hp⟩)).epoch_eq ht hp
  · obtain ⟨t, ht, hp⟩ := hdestroys.mp hd
    exact hp.eq_of_epoch (hepoch t ht hp) ▸ ht

/-- A value is registered in the first slot, another in the second and destroyed: the first is destroyed
under an epoch that has not begun, and what names the second slot is unknown. -/
theorem sample_by_place :
    let ops : List (Op Nat) := [.register 1, .register 2, .destroy ⟨1, 0, 0⟩]
    let r := (empty : Registry Nat).after ops
    (∃ v r', r.destroy ⟨0, 0, 7⟩ = .ok (v, r')) ∧
      exec (InPlace.destroy ⟨1, 0, 0⟩) r = (.error (.invalidHandle ⟨1, 0, 0⟩ .unknown), r) := by
  intro ops r
  have hfirst : HandedOut ops ⟨0, 0, 0⟩ := handedOut_iff_own?.mpr ⟨1, rfl⟩
  refine ⟨(destroy_by_place ops ⟨0, 0, 7⟩).1.mpr ⟨⟨0, 0, 0⟩, hfirst, rfl, rfl⟩,
    (destroy_by_place ops ⟨1, 0, 0⟩).2.2.1 fun t ht hp => ?_⟩
  obtain ⟨v, hv⟩ := handedOut_iff_own?.mp ht
  have he := (hp.entry?_eq r).trans (own?_eq_some_iff.mp hv)
  exact nomatch he

/-- **A handle that nobody was given destroys a value.** Its epoch has not begun and it does not resolve, but
its slot and generation are those of the one handle given out. -/
theorem forged_destroys :
    let ops : List (Op Nat) := [.register 1]
    let r := (empty : Registry Nat).after ops
    (empty : Registry Nat).issued ops = [⟨0, 0, 0⟩] ∧ ¬ HandedOut ops ⟨0, 0, 7⟩ ∧
      r.resolve ⟨0, 0, 7⟩ = .error (.stale 7 0) ∧
      ∃ r', r.destroy ⟨0, 0, 7⟩ = .ok (1, r') ∧ r'.live = 0 ∧
        r'.resolve ⟨0, 0, 0⟩ = .error .unknown := by
  refine ⟨rfl, fun hout => ?_, rfl, _, rfl, rfl, rfl⟩
  obtain ⟨v, hv⟩ := handedOut_iff_own?.mp hout
  exact nomatch hv

end Registry

end PolicyReach
