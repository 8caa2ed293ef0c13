import PolicyReach.Proofs.Registry.Runs

/-!
# Values behind different handles

All values of a registry share its slots. A handle that has been given out either names its own value
still, or its slot has been given up since (`Registry.Accounts`); so two such handles never stand for the
same place, and what is done under one of them leaves the other alone.

* **`Performs.accounts`**: every operation keeps a registry accounting for a handle, as long as the
  generation of its slot does not wrap around;
* `Accounts.eq_of_place`: of the handles accounted for, one at most stands for the place of a value;
* `Alike`: two registries have the same under one handle, whatever else they hold;
  `Alike.resolve`, `Alike.replace`, `Alike.destroy`: so they have after operations on that handle;
* **`Performs.alike`**: an operation that is not about the place of a handle, and begins no epoch, leaves
  what the handle names.
-/

namespace PolicyReach

namespace Registry

variable {α : Type} {r r' : Registry α} {h h' : Handle} {v : α} {op : Op α} {reply : Reply α}

/-! ## Handles that have been given out -/

/-- A handle names something in its own epoch, or is of an earlier generation of its slot. -/
def Accounts (r : Registry α) (h : Handle) : Prop :=
  (∃ v, r.own? h = some v) ∨ h.generation.toNat < (r.generation h.slot.toNat).toNat

theorem accounts_register (hr : r.Sound) (hreg : r.register v = some (h, r')) : r'.Accounts h :=
  Or.inl ⟨v, own?_register_self hr hreg⟩

theorem generation_of_held {e : Entry α} (he : r.entry? h = some e) :
    r.generation h.slot.toNat = h.generation := by
  obtain ⟨s, hs, hg, -⟩ := entry?_eq_some_iff.mp he
  unfold generation
  rw [hs]
  exact hg

theorem occupied_of_held {e : Entry α} (he : r.entry? h = some e) :
    r.occupied h.slot.toNat = true := by
  obtain ⟨s, hs, -, hse⟩ := entry?_eq_some_iff.mp he
  simp [occupied, hs, hse]

/-- What stands in the place of a handle accounted for is its own. -/
theorem Accounts.own?_of_entry? (hh : r.Accounts h) {e : Entry α} (he : r.entry? h = some e) :
    r.own? h = some e.value := by
  rcases hh with ⟨v, hv⟩ | hlt
  · rw [own?_eq_some_iff, he] at hv
    obtain rfl := Option.some.inj hv
    exact own?_eq_some_iff.mpr he
  · rw [generation_of_held he] at hlt
    exact absurd hlt (Nat.lt_irrefl _)

/-- Of the handles accounted for, one at most stands for the place of a value. -/
theorem Accounts.eq_of_place (hh : r.Accounts h') (hv : r.own? h = some v) (hslot : h'.slot = h.slot)
    (hgen : h'.generation = h.generation) : h' = h := by
  have hplace : r.entry? h' = r.entry? h := by
    unfold entry?
    rw [hslot, hgen]
  exact eq_of_own? (hh.own?_of_entry? (hplace.trans (own?_eq_some_iff.mp hv))) hv hslot

/-- A handle ceases to name what it does only when its slot is given up. -/
theorem Performs.occupied_of_lost (hr : r.Sound) (hop : r.Performs op reply r')
    (hv : r.own? h = some v) (hlost : r'.own? h = none) : r'.occupied h.slot.toNat = false := by
  have hkept {w : α} (hw : r'.own? h = some w) : r'.occupied h.slot.toNat = false :=
    nomatch hlost.symm.trans hw
  cases hop with
  | registered hreg => exact hkept (own?_register hr hreg hv)
  | full | found | notFound | notDestroyed => exact hkept hv
  | @modified h' w f resolves =>
    rw [own?_replace resolves] at hlost
    split at hlost
    · exact nomatch hlost
    · exact nomatch hv.symm.trans hlost
  | @destroyed h' w r' destroys =>
    obtain ⟨-, -, ⟨s, e, -, -, -, -, hself⟩, -⟩ := destroy_spec destroys
    rw [own?_destroy destroys] at hlost
    split at hlost
    · rename_i hplace
      simp [occupied, hplace.1, hself, Slot.vacate]
    · exact nomatch hv.symm.trans hlost
  | purged =>
    have hne : h.epoch ≠ r.epoch := fun heq => nomatch hlost.symm.trans (own?_purgeStale heq hv)
    obtain ⟨s, hs, -, he⟩ := own?_iff_slot.mp hv
    simp [occupied, slots_purgeStale, hs, Slot.isStale_of_entry he hne, Slot.vacate]
  | invalidated => exact hkept hv

/-- The generation of a slot counts, as long as it does not wrap around. -/
theorem Performs.toNat_generation (hr : r.Sound) (hop : r.Performs op reply r') {i : Nat}
    (hgen : r.occupied i = true → r'.occupied i = false → (r.generation i).toNat + 1 < UInt32.size) :
    (r'.generation i).toNat =
      (r.generation i).toNat + (r.occupied i && !r'.occupied i).toNat := by
  rw [hop.generation hr i]
  cases hvacates : r.occupied i && !r'.occupied i with
  | true =>
    rw [Bool.and_eq_true, Bool.not_eq_true'] at hvacates
    exact (UInt32.toNat_add _ _).trans (Nat.mod_eq_of_lt (hgen hvacates.1 hvacates.2))
  | false => exact congrArg UInt32.toNat (UInt32.add_zero _)

/-- **Every operation keeps a registry accounting for a handle**, as long as the generation of its slot
does not wrap around. -/
theorem Performs.accounts (hr : r.Sound) (hop : r.Performs op reply r')
    (hgen : r.occupied h.slot.toNat = true → r'.occupied h.slot.toNat = false →
      (r.generation h.slot.toNat).toNat + 1 < UInt32.size) (hh : r.Accounts h) :
    r'.Accounts h := by
  have hnext := hop.toNat_generation hr hgen
  rcases hh with ⟨v, hv⟩ | hlt
  · cases hv' : r'.own? h with
    | some w => exact Or.inl ⟨w, hv'⟩
    | none =>
      have heq := generation_of_held (own?_eq_some_iff.mp hv)
      rw [hop.occupied_of_lost hr hv hv', occupied_of_held (own?_eq_some_iff.mp hv), heq] at hnext
      exact Or.inr (hnext ▸ Nat.lt_succ_self _)
  · exact Or.inr (hnext ▸ Nat.lt_add_right _ hlt)

/-! ## What is held under one handle -/

theorem exists_destroy {e : Entry α} (he : r.entry? h = some e) :
    ∃ s, r.destroy h = .ok (e.value, s) := by
  unfold Registry.destroy
  rw [he]
  exact ⟨_, rfl⟩

/-- Two registries are of one epoch, and have the same under one handle. -/
structure Alike (r : Registry α) (h : Handle) (r' : Registry α) : Prop where
  epoch : r'.epoch = r.epoch
  entry : r'.entry? h = r.entry? h

namespace Alike

theorem refl (r : Registry α) (h : Handle) : r.Alike h r := ⟨rfl, rfl⟩

theorem trans {r'' : Registry α} (hr : r.Alike h r') (hr' : r'.Alike h r'') : r.Alike h r'' :=
  ⟨hr'.epoch.trans hr.epoch, hr'.entry.trans hr.entry⟩

theorem resolve (hr : r.Alike h r') : r'.resolve h = r.resolve h := by
  unfold Registry.resolve
  rw [hr.entry, hr.epoch]

theorem replace (hr : r.Alike h r') (hv : r.resolve h = .ok v) (w : α) :
    (r.replace h w).Alike h (r'.replace h w) := by
  obtain ⟨he, -⟩ := resolve_eq_ok_iff.mp hv
  refine ⟨hr.epoch, ?_⟩
  rw [entry?_replace_self he, entry?_replace_self (hr.entry.trans he), hr.epoch]

/-- Destroying fails in both registries, or gives the same in both. -/
theorem destroy (hr : r.Alike h r') :
    (∃ fault, r.destroy h = .error fault ∧ r'.destroy h = .error fault) ∨
      ∃ v s s', r.destroy h = .ok (v, s) ∧ r'.destroy h = .ok (v, s') ∧ s.Alike h s' := by
  have hsame := hr.entry
  cases he : r.entry? h with
  | none =>
    rw [he] at hsame
    refine Or.inl ⟨.unknown, ?_, ?_⟩
    · simp [Registry.destroy, he]
    · simp [Registry.destroy, hsame]
  | some e =>
    rw [he] at hsame
    obtain ⟨s, hd⟩ := exists_destroy he
    obtain ⟨s', hd'⟩ := exists_destroy hsame
    refine Or.inr ⟨_, s, s', hd, hd', ?_, ?_⟩
    · rw [(destroy_spec hd).1, (destroy_spec hd').1, hr.epoch]
    · rw [entry?_destroy hd, entry?_destroy hd', if_pos ⟨rfl, rfl⟩, if_pos ⟨rfl, rfl⟩]

end Alike

/-- **An operation leaves what a handle names**, if it is not about the place of that handle and begins
no epoch. -/
theorem Performs.alike (hr : r.Sound) (hop : r.Performs op reply r') (hv : r.resolve h = .ok v)
    (hother : ∀ h', op.handle? = some h' → ¬ (h'.slot = h.slot ∧ h'.generation = h.generation))
    (hepoch : r'.epoch = r.epoch) : r.Alike h r' := by
  obtain ⟨he, -⟩ := resolve_eq_ok_iff.mp hv
  refine ⟨hepoch, ?_⟩
  cases hop with
  | registered hreg => exact (entry?_register hr hreg he).trans he.symm
  | full | found | notFound | notDestroyed | invalidated => rfl
  | @modified h' w f resolves =>
    refine entry?_replace_ne h' _ fun hslot => hother h' rfl ?_
    -- of two handles with one slot that both name something, one is the other
    obtain rfl := eq_of_own? (resolve_eq_ok_iff_own?.mp hv).1 (resolve_eq_ok_iff_own?.mp resolves).1
      hslot
    exact ⟨rfl, rfl⟩
  | @destroyed h' w r' destroys =>
    rw [entry?_destroy destroys, if_neg]
    rintro ⟨hslot, hgen⟩
    exact hother h' rfl ⟨hslot.symm, hgen.symm⟩
  | purged => exact (entry?_purgeStale he rfl).trans he.symm

end Registry

end PolicyReach
