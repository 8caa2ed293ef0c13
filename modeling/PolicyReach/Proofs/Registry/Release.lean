import Mathlib.Algebra.Group.Nat.Defs
import PolicyReach.Proofs.Registry.Runs

/-!
# What becomes of a handle that has been released

A handle is released when the value in its place is destroyed or purged. Its slot may be used again,
under the next generation. Generations are words: they wrap around, so a handle is protected from naming
what others have registered for as many releases of its slot as there are words, and no longer.

* **`gone_of_released`**: a handle that has been released names nothing, whatever is done, until its slot
  has been given up `2 ^ 32` times since the handle was given out;
* **`revived`**: then it names again what is registered in its slot.
-/

namespace PolicyReach

namespace Registry

variable {α : Type} {r r' : Registry α} {h : Handle} {v : α} {op : Op α}

/-- The operation gives up what stands in the place of a handle. -/
def Releases (r : Registry α) (op : Op α) (h : Handle) : Prop :=
  (∃ e, r.entry? h = some e) ∧ Registry.entry? (r.perform op).2 h = none

/-- An operation that releases a handle gives up the value of its slot. -/
theorem Releases.vacates (hr : r.Sound) (h' : r.Releases op h) :
    r.vacates op h.slot.toNat = true := by
  obtain ⟨⟨e, he⟩, hnone⟩ := h'
  obtain ⟨⟨g, entry⟩, hs, hg, hse⟩ := entry?_eq_some_iff.mp he
  obtain rfl : entry = some e := hse
  have hchange := (r.performs op).change hr h.slot.toNat
  have hstays {e' : Entry α}
      (hs' : (r.perform op).2.slots[h.slot.toNat]? = some ⟨g, some e'⟩) : False :=
    nomatch hnone.symm.trans (entry?_eq_some_iff.mpr ⟨_, hs', hg, rfl⟩)
  unfold Registry.vacates occupied
  rw [hs] at hchange ⊢
  generalize (r.perform op).2.slots[h.slot.toNat]? = s' at hchange hstays ⊢
  cases hchange with
  | same => exact (hstays rfl).elim
  | replaced => exact (hstays rfl).elim
  | vacated => rfl

theorem unknown_of_entry?_eq_none (hnone : r.entry? h = none) :
    r.resolve h = .error .unknown ∧ r.destroy h = .error .unknown := by
  unfold resolve destroy
  rw [hnone]
  exact ⟨rfl, rfl⟩

/-- A handle names nothing while the generation of its slot is another. -/
theorem entry?_eq_none_of_generation (hne : r.generation h.slot.toNat ≠ h.generation) :
    r.entry? h = none := by
  rw [Option.eq_none_iff_forall_not_mem]
  intro e he
  obtain ⟨s, hs, hg, -⟩ := entry?_eq_some_iff.mp he
  refine hne ?_
  unfold generation
  rw [hs]
  exact hg

/-- **A handle that has been released names nothing**, in any state before its slot has been given up
`2 ^ 32` times since the handle was given out. -/
theorem gone_of_released {pre mid post : List (Op α)}
    (hreg : ((empty : Registry α).after pre).register v = some (h, r'))
    (hreleases : (r'.after mid).Releases op h)
    (hfew : r'.frees h.slot.toNat (mid ++ op :: post) < 2 ^ 32) :
    (r'.after (mid ++ op :: post)).resolve h = .error .unknown ∧
      (r'.after (mid ++ op :: post)).destroy h = .error .unknown := by
  have hsound : ((empty : Registry α).after pre).Sound := after_sound sound_empty pre
  have hsound' : r'.Sound := hsound.register hreg
  obtain ⟨-, -, hself, -, -⟩ := register_spec hsound hreg
  have hissued : r'.generation h.slot.toNat = h.generation := by
    unfold generation
    rw [hself]
    rfl
  have honce : 0 < r'.frees h.slot.toNat (mid ++ op :: post) := by
    rw [frees_append, frees, hreleases.vacates (after_sound hsound' mid)]
    show 0 < _ + (1 + _)
    omega
  refine unknown_of_entry?_eq_none (entry?_eq_none_of_generation fun heq => ?_)
  -- the generation has advanced, by less than would bring it back
  rw [generation_after hsound', hissued] at heq
  have hzero : UInt32.ofNat (r'.frees h.slot.toNat (mid ++ op :: post)) = 0 := by
    rwa [← UInt32.add_right_inj h.generation, UInt32.add_zero]
  have hval := congrArg UInt32.toNat hzero
  rw [UInt32.toNat_ofNat', Nat.mod_eq_of_lt hfew] at hval
  exact absurd hval (Nat.pos_iff_ne_zero.mp honce)

/-- A registry of one value. -/
def sampleHeld : Registry Nat := { slots := #[⟨0, some ⟨0, 1⟩⟩], live := 1 }

/-- The first handle names nothing once its value has been destroyed and its slot used again. -/
theorem sample_gone :
    (empty : Registry Nat).register 1 = some (⟨0, 0, 0⟩, sampleHeld) ∧
      (sampleHeld.after [.destroy ⟨0, 0, 0⟩, .register 2]).resolve ⟨0, 0, 0⟩ = .error .unknown ∧
      (sampleHeld.after [.destroy ⟨0, 0, 0⟩, .register 2]).destroy ⟨0, 0, 0⟩ = .error .unknown := by
  have hreg : ((empty : Registry Nat).after []).register 1 = some (⟨0, 0, 0⟩, sampleHeld) := rfl
  have hreleases : (sampleHeld.after []).Releases (.destroy ⟨0, 0, 0⟩) ⟨0, 0, 0⟩ := ⟨⟨_, rfl⟩, rfl⟩
  exact ⟨hreg, gone_of_released hreg hreleases
    (Nat.lt_of_le_of_lt (frees_le_length _ _ [.destroy ⟨0, 0, 0⟩, .register 2]) (by decide))⟩

/-! ## Coming back -/

/-- The registry whose only slot is vacant, under a generation. -/
def vacant (g : UInt32) : Registry Unit := { slots := #[⟨g, none⟩], free := [0] }

/-- A number of times, register a value and destroy it, from a generation on. -/
def rounds (g : UInt32) : Nat → List (Op Unit)
  | 0 => []
  | n + 1 => .register () :: .destroy ⟨0, g, 0⟩ :: rounds (g + 1) n

theorem after_round (g : UInt32) :
    (vacant g).after [.register (), .destroy ⟨0, g, 0⟩] = vacant (g + 1) := by
  have hfilled : (vacant g).register () =
      some (⟨0, g, 0⟩, { slots := #[⟨g, some ⟨0, ()⟩⟩], free := [], live := 1 }) := rfl
  have hdestroyed :
      destroy ({ slots := #[⟨g, some ⟨0, ()⟩⟩], free := [], live := 1 } : Registry Unit) ⟨0, g, 0⟩ =
        .ok ((), vacant (g + 1)) := by
    simp [destroy, entry?, vacant, Slot.vacate]
  simp only [after_cons, after_nil, perform, hfilled, hdestroyed]

/-- Every round advances the generation of the slot. -/
theorem after_rounds (g : UInt32) (n : Nat) :
    (vacant g).after (rounds g n) = vacant (g + UInt32.ofNat n) := by
  induction n generalizing g with
  | zero => exact congrArg vacant (UInt32.add_zero g).symm
  | succ n ih =>
    have hround : (vacant g).after (rounds g (n + 1)) = (vacant (g + 1)).after (rounds (g + 1) n) := by
      rw [← after_round, ← after_append]
      rfl
    rw [hround, ih, UInt32.add_assoc, Nat.add_comm n 1, UInt32.ofNat_add]
    rfl

/-- **A handle that has been released may name something again.** The first handle is destroyed; then the
slot is used and given up as often as there are other generations, and once more used. -/
theorem revived :
    ∃ r' : Registry Unit, (empty : Registry Unit).register () = some (⟨0, 0, 0⟩, r') ∧
      r'.Releases (.destroy ⟨0, 0, 0⟩) ⟨0, 0, 0⟩ ∧
      (r'.after (.destroy ⟨0, 0, 0⟩ :: (rounds 1 (2 ^ 32 - 1) ++ [.register ()]))).resolve ⟨0, 0, 0⟩ =
        .ok () := by
  have hfirst : (empty : Registry Unit).register () =
      some (⟨0, 0, 0⟩, { slots := #[⟨0, some ⟨0, ()⟩⟩], live := 1 }) := rfl
  have hdestroyed : (perform ({ slots := #[⟨0, some ⟨0, ()⟩⟩], live := 1 } : Registry Unit)
      (.destroy ⟨0, 0, 0⟩)).2 = vacant 1 := rfl
  refine ⟨_, hfirst, ⟨⟨_, rfl⟩, rfl⟩, ?_⟩
  rw [after_cons, hdestroyed, after_append, after_rounds]
  -- the last generation but one is followed by the first
  rw [show (1 : UInt32) + UInt32.ofNat (2 ^ 32 - 1) = 0 from by decide]
  rfl

end Registry

end PolicyReach
