import Mathlib.Data.List.Nodup
import PolicyReach.Registry

/-!
# The slots of a registry

Every operation of a registry touches few slots, and leaves the others as they are. A registry is
`Sound` if its free list names each vacant slot once and slot numbers fit into handles; every
operation keeps that.

* `register_spec`, `slots_replace`, `destroy_spec`, `slots_purgeStale`: what each operation does to
  the slots;
* `Sound.register`, `Sound.replace`, `Sound.destroy`, `Sound.purgeStale`, `Sound.invalidateAll`;
* `entry?_register`: a value that is held stays held, in the same place, while others are registered;
* `All`, a property of all that is held, and how the operations keep it;
* `own?`, what a handle names in its own epoch, and how the operations change it.
-/

namespace PolicyReach

namespace Registry

variable {α : Type} {r r' : Registry α} {h h' : Handle} {v : α}

/-- The free list names each vacant slot once, and the number of a slot fits into a handle. -/
structure Sound (r : Registry α) : Prop where
  size_le : r.slots.size ≤ UInt32.size
  free_nodup : r.free.Nodup
  mem_free_iff : ∀ i, i ∈ r.free ↔ ∃ s : Slot α, r.slots[i]? = some s ∧ s.entry = none

/-- A property of every entry that is held. -/
def All (P : Entry α → Prop) (r : Registry α) : Prop :=
  ∀ (i : Nat) (s : Slot α) (e : Entry α), r.slots[i]? = some s → s.entry = some e → P e

/-! ## What a handle names -/

theorem entry?_eq_some_iff {e : Entry α} :
    r.entry? h = some e ↔
      ∃ s, r.slots[h.slot.toNat]? = some s ∧ s.generation = h.generation ∧ s.entry = some e := by
  unfold entry?
  cases r.slots[h.slot.toNat]? with
  | none => simp
  | some s => simp

theorem All.of_held {P : Entry α → Prop} (hr : r.All P) {e : Entry α} (he : r.entry? h = some e) :
    P e := by
  obtain ⟨s, hs, -, hse⟩ := entry?_eq_some_iff.mp he
  exact hr _ s e hs hse

theorem resolve_eq_ok_iff :
    r.resolve h = .ok v ↔
      r.entry? h = some { epoch := r.epoch, value := v } ∧ h.epoch = r.epoch := by
  unfold resolve
  cases r.entry? h with
  | none => simp
  | some e =>
    obtain ⟨epoch, value⟩ := e
    by_cases hc : epoch = r.epoch ∧ h.epoch = r.epoch
    · simp [hc.1, hc.2]
    · simp only [if_neg hc, Option.some.injEq, Entry.mk.injEq]
      constructor
      · exact fun hn => nomatch hn
      · rintro ⟨⟨rfl, -⟩, he⟩
        exact absurd ⟨rfl, he⟩ hc

theorem resolve_eq_error {fault : HandleFault} (hf : r.resolve h = .error fault) :
    r.entry? h = none ∧ fault = .unknown ∨
      ∃ e, r.entry? h = some e ∧ ¬ (e.epoch = r.epoch ∧ h.epoch = r.epoch) ∧
        fault = .stale h.epoch r.epoch := by
  unfold resolve at hf
  cases he : r.entry? h with
  | none =>
    rw [he] at hf
    exact Or.inl ⟨rfl, (Except.error.inj hf).symm⟩
  | some e =>
    rw [he] at hf
    simp only at hf
    split at hf
    · exact nomatch hf
    · rename_i hnot
      exact Or.inr ⟨e, rfl, hnot, (Except.error.inj hf).symm⟩

theorem destroy_eq_error {fault : HandleFault} (hf : r.destroy h = .error fault) :
    r.entry? h = none ∧ fault = .unknown := by
  unfold destroy at hf
  cases he : r.entry? h with
  | none =>
    rw [he] at hf
    exact ⟨rfl, (Except.error.inj hf).symm⟩
  | some e =>
    rw [he] at hf
    exact nomatch hf

/-! ## Registering -/

/-- A value is registered in a slot that held nothing, under the current epoch. -/
theorem register_spec (hr : r.Sound) (hreg : r.register v = some (h, r')) :
    h.epoch = r.epoch ∧ r'.epoch = r.epoch ∧
      r'.slots[h.slot.toNat]? = some (r.hold h.generation v) ∧
      (∀ s, r.slots[h.slot.toNat]? = some s → s.entry = none) ∧
      ∀ i, i ≠ h.slot.toNat → r'.slots[i]? = r.slots[i]? := by
  unfold register at hreg
  split at hreg
  · rename_i i free hfree
    obtain ⟨s, hs, hvacant⟩ := (hr.mem_free_iff i).mp (hfree ▸ List.mem_cons_self)
    rw [hs] at hreg
    obtain ⟨rfl, rfl⟩ := hreg
    have hlt := (Array.getElem?_eq_some_iff.mp hs).1
    have hi : (UInt32.ofNat i).toNat = i :=
      UInt32.toNat_ofNat_of_lt (Nat.lt_of_lt_of_le hlt hr.size_le)
    simp only [hi]
    refine ⟨trivial, trivial, ?_, fun t ht => ?_, fun j hj => ?_⟩
    · rw [Array.getElem?_setIfInBounds_self_of_lt hlt]
    · rw [hs] at ht
      exact Option.some.inj ht ▸ hvacant
    · rw [Array.getElem?_setIfInBounds_ne hj.symm]
  · split at hreg
    · rename_i hlt
      obtain ⟨rfl, rfl⟩ := hreg
      have hi : (UInt32.ofNat r.slots.size).toNat = r.slots.size := UInt32.toNat_ofNat_of_lt hlt
      simp only [hi]
      refine ⟨trivial, trivial, ?_, fun t ht => ?_, fun j hj => ?_⟩
      · rw [Array.getElem?_push_size]
      · exact absurd (Array.getElem?_eq_some_iff.mp ht).1 (Nat.lt_irrefl _)
      · rw [Array.getElem?_push, if_neg hj]
    · exact absurd hreg (fun hn => nomatch hn)

theorem Sound.register (hr : r.Sound) (hreg : r.register v = some (h, r')) : r'.Sound := by
  obtain ⟨-, -, hself, hvacant, hother⟩ := register_spec hr hreg
  unfold Registry.register at hreg
  split at hreg
  · rename_i i free hfree
    have hnd := hr.free_nodup
    rw [hfree, List.nodup_cons] at hnd
    obtain ⟨s, hs, -⟩ := (hr.mem_free_iff i).mp (hfree ▸ List.mem_cons_self)
    rw [hs] at hreg
    obtain ⟨rfl, rfl⟩ := hreg
    have hlt := (Array.getElem?_eq_some_iff.mp hs).1
    have hi : (UInt32.ofNat i).toNat = i :=
      UInt32.toNat_ofNat_of_lt (Nat.lt_of_lt_of_le hlt hr.size_le)
    simp only [hi] at hself hother
    refine ⟨by simpa using hr.size_le, hnd.2, fun j => ?_⟩
    by_cases hj : j = i
    · obtain rfl := hj
      rw [hself]
      simp [hnd.1, hold]
    · rw [hother j hj, ← hr.mem_free_iff, hfree, List.mem_cons]
      simp [hj]
  · rename_i hfree
    split at hreg
    · rename_i hlt
      obtain ⟨rfl, rfl⟩ := hreg
      have hi : (UInt32.ofNat r.slots.size).toNat = r.slots.size := UInt32.toNat_ofNat_of_lt hlt
      simp only [hi] at hself hother
      refine ⟨Array.size_push _ ▸ hlt, hr.free_nodup, fun j => ?_⟩
      by_cases hj : j = r.slots.size
      · obtain rfl := hj
        rw [hself]
        simp [hfree, hold]
      · rw [hother j hj, ← hr.mem_free_iff]
    · exact absurd hreg (fun hn => nomatch hn)

/-- A slot that is used again keeps its generation, a new one begins with the first. -/
theorem register_generation (hr : r.Sound) (hreg : r.register v = some (h, r')) :
    (r.slots[h.slot.toNat]?).elim 0 Slot.generation = h.generation := by
  unfold register at hreg
  split at hreg
  · rename_i i free hfree
    obtain ⟨s, hs, -⟩ := (hr.mem_free_iff i).mp (hfree ▸ List.mem_cons_self)
    rw [hs] at hreg
    obtain ⟨rfl, -⟩ := hreg
    have hlt := (Array.getElem?_eq_some_iff.mp hs).1
    have hi : (UInt32.ofNat i).toNat = i :=
      UInt32.toNat_ofNat_of_lt (Nat.lt_of_lt_of_le hlt hr.size_le)
    simp only [hi, hs, Option.elim_some]
  · split at hreg
    · rename_i hlt
      obtain ⟨rfl, -⟩ := hreg
      have hi : (UInt32.ofNat r.slots.size).toNat = r.slots.size := UInt32.toNat_ofNat_of_lt hlt
      simp only [hi, Array.getElem?_eq_none (Nat.le_refl _), Option.elim_none]
    · exact absurd hreg (fun hn => nomatch hn)

theorem live_register (hreg : r.register v = some (h, r')) : r'.live = r.live + 1 := by
  unfold register at hreg
  split at hreg
  · split at hreg
    · obtain ⟨-, rfl⟩ := hreg
      rfl
    · exact nomatch hreg
  · split at hreg
    · obtain ⟨-, rfl⟩ := hreg
      rfl
    · exact nomatch hreg

/-- No slot is vacant, and there is no number for another one. -/
def IsFull (r : Registry α) : Prop := r.free = [] ∧ UInt32.size ≤ r.slots.size

theorem exists_register (hr : r.Sound) (hfull : ¬ r.IsFull) (v : α) :
    ∃ h r', r.register v = some (h, r') := by
  unfold Registry.register
  split
  · rename_i i free hfree
    obtain ⟨s, hs, -⟩ := (hr.mem_free_iff i).mp (hfree ▸ List.mem_cons_self)
    rw [hs]
    exact ⟨_, _, rfl⟩
  · rename_i hfree
    rw [if_pos (Nat.lt_of_not_le fun hle => hfull ⟨hfree, hle⟩)]
    exact ⟨_, _, rfl⟩

/-- What is held stays held, in the same place, while another value is registered. -/
theorem entry?_register (hr : r.Sound) (hreg : r.register v = some (h, r')) {e : Entry α}
    (he : r.entry? h' = some e) : Registry.entry? r' h' = some e := by
  obtain ⟨-, -, -, hvacant, hother⟩ := register_spec hr hreg
  obtain ⟨s, hs, hg, hse⟩ := entry?_eq_some_iff.mp he
  have hne : h'.slot.toNat ≠ h.slot.toNat := by
    intro heq
    have := hvacant s (heq ▸ hs)
    rw [hse] at this
    exact absurd this (Option.some_ne_none e)
  exact entry?_eq_some_iff.mpr ⟨s, (hother _ hne).trans hs, hg, hse⟩

/-- The handle given names the value. -/
theorem entry?_register_self (hr : r.Sound) (hreg : r.register v = some (h, r')) :
    Registry.entry? r' h = some { epoch := r.epoch, value := v } := by
  obtain ⟨-, -, hself, -, -⟩ := register_spec hr hreg
  exact entry?_eq_some_iff.mpr ⟨_, hself, rfl, rfl⟩

theorem All.register {P : Entry α → Prop} (hr : r.Sound) (hall : r.All P)
    (hreg : r.register v = some (h, r')) (hv : P { epoch := r.epoch, value := v }) : r'.All P := by
  obtain ⟨-, -, hself, -, hother⟩ := register_spec hr hreg
  intro i s e hs he
  by_cases hi : i = h.slot.toNat
  · rw [hi, hself] at hs
    obtain rfl := Option.some.inj hs
    exact Option.some.inj he ▸ hv
  · exact hall i s e (hother i hi ▸ hs) he

/-! ## Replacing -/

theorem slots_replace_self {e : Entry α} (he : r.entry? h = some e) (v : α) :
    (r.replace h v).slots[h.slot.toNat]? = some (r.hold h.generation v) := by
  obtain ⟨s, hs, -, -⟩ := entry?_eq_some_iff.mp he
  exact Array.getElem?_setIfInBounds_self_of_lt (Array.getElem?_eq_some_iff.mp hs).1

theorem slots_replace_ne (h : Handle) (v : α) {i : Nat} (hi : i ≠ h.slot.toNat) :
    (r.replace h v).slots[i]? = r.slots[i]? :=
  Array.getElem?_setIfInBounds_ne hi.symm

theorem entry?_replace_self {e : Entry α} (he : r.entry? h = some e) (v : α) :
    Registry.entry? (r.replace h v) h = some { epoch := r.epoch, value := v } :=
  entry?_eq_some_iff.mpr ⟨_, slots_replace_self he v, rfl, rfl⟩

theorem entry?_replace_ne (h : Handle) (v : α) (hne : h'.slot ≠ h.slot) :
    Registry.entry? (r.replace h v) h' = r.entry? h' := by
  have hi : h'.slot.toNat ≠ h.slot.toNat := fun heq => hne (UInt32.toNat_inj.mp heq)
  unfold entry?
  rw [slots_replace_ne h v hi]

theorem Sound.replace (hr : r.Sound) {e : Entry α} (he : r.entry? h = some e) (v : α) :
    (r.replace h v).Sound := by
  refine ⟨?_, hr.free_nodup, fun i => ?_⟩
  · show (r.slots.setIfInBounds _ _).size ≤ _
    rw [Array.size_setIfInBounds]
    exact hr.size_le
  · show i ∈ r.free ↔ _
    rw [hr.mem_free_iff]
    by_cases hi : i = h.slot.toNat
    · obtain ⟨s, hs, -, hse⟩ := entry?_eq_some_iff.mp he
      rw [hi, slots_replace_self he v, hs]
      simp [hse, hold]
    · rw [slots_replace_ne h v hi]

theorem All.replace {P : Entry α → Prop} (hall : r.All P) {e : Entry α}
    (he : r.entry? h = some e) (hv : P { epoch := r.epoch, value := v }) :
    (r.replace h v).All P := by
  intro i s x hs hx
  by_cases hi : i = h.slot.toNat
  · rw [hi, slots_replace_self he v] at hs
    obtain rfl := Option.some.inj hs
    exact Option.some.inj hx ▸ hv
  · exact hall i s x ((slots_replace_ne h v hi) ▸ hs) hx

/-! ## Destroying -/

theorem live_destroy (hd : r.destroy h = .ok (v, r')) : r'.live = r.live - 1 := by
  unfold destroy at hd
  split at hd
  · exact nomatch hd
  · obtain ⟨-, rfl⟩ := hd
    rfl

theorem destroy_spec (hd : r.destroy h = .ok (v, r')) :
    r'.epoch = r.epoch ∧ r'.free = h.slot.toNat :: r.free ∧
      (∃ s e, r.slots[h.slot.toNat]? = some s ∧ s.generation = h.generation ∧ s.entry = some e ∧
        e.value = v ∧ r'.slots[h.slot.toNat]? = some s.vacate) ∧
      ∀ i, i ≠ h.slot.toNat → r'.slots[i]? = r.slots[i]? := by
  unfold destroy at hd
  cases he : r.entry? h with
  | none =>
    rw [he] at hd
    exact absurd hd (fun hn => nomatch hn)
  | some e =>
    rw [he] at hd
    obtain ⟨rfl, rfl⟩ := hd
    obtain ⟨s, hs, hg, hse⟩ := entry?_eq_some_iff.mp he
    refine ⟨rfl, rfl, ⟨s, e, hs, hg, hse, rfl, ?_⟩, fun i hi => ?_⟩
    · rw [Array.getElem?_modify, if_pos rfl, hs]
      rfl
    · rw [Array.getElem?_modify, if_neg hi.symm]

theorem Sound.destroy (hr : r.Sound) (hd : r.destroy h = .ok (v, r')) : r'.Sound := by
  obtain ⟨-, hfree, ⟨s, e, hs, -, hse, -, hself⟩, hother⟩ := destroy_spec hd
  have hsize : r'.slots.size = r.slots.size := by
    unfold Registry.destroy at hd
    cases he : r.entry? h with
    | none =>
      rw [he] at hd
      exact absurd hd (fun hn => nomatch hn)
    | some e =>
      rw [he] at hd
      obtain ⟨rfl, rfl⟩ := hd
      exact Array.size_modify
  have hheld : h.slot.toNat ∉ r.free := by
    rw [hr.mem_free_iff, hs]
    simp [hse]
  refine ⟨hsize ▸ hr.size_le, ?_, fun i => ?_⟩
  · rw [hfree, List.nodup_cons]
    exact ⟨hheld, hr.free_nodup⟩
  · rw [hfree, List.mem_cons]
    by_cases hi : i = h.slot.toNat
    · rw [hi, hself]
      simp [Slot.vacate]
    · rw [hother i hi, ← hr.mem_free_iff]
      simp [hi]

/-- What stands in the place of a handle is gone once that place has been vacated. -/
theorem entry?_destroy (hd : r.destroy h = .ok (v, r')) (h' : Handle) :
    Registry.entry? r' h' =
      if h'.slot = h.slot ∧ h'.generation = h.generation then none else r.entry? h' := by
  obtain ⟨-, -, ⟨s, e, hs, hg, -, -, hself⟩, hother⟩ := destroy_spec hd
  unfold entry?
  by_cases hslot : h'.slot = h.slot
  · have hvacant : (if s.vacate.generation = h'.generation then s.vacate.entry else none) = none :=
      ite_self none
    simp only [hslot, hself, hs, hvacant, true_and]
    by_cases hgen : h'.generation = h.generation
    · rw [if_pos hgen]
    · have hne : s.generation ≠ h'.generation := fun heq => hgen (heq.symm.trans hg)
      rw [if_neg hgen, if_neg hne]
  · have hi : h'.slot.toNat ≠ h.slot.toNat := fun heq => hslot (UInt32.toNat_inj.mp heq)
    rw [hother _ hi, if_neg fun hsame => hslot hsame.1]

theorem All.destroy {P : Entry α → Prop} (hall : r.All P) (hd : r.destroy h = .ok (v, r')) :
    r'.All P := by
  obtain ⟨-, -, ⟨s, -, -, -, -, -, hself⟩, hother⟩ := destroy_spec hd
  intro i t x ht hx
  by_cases hi : i = h.slot.toNat
  · rw [hi, hself] at ht
    obtain rfl := Option.some.inj ht
    exact absurd hx (fun hn => nomatch hn)
  · exact hall i t x (hother i hi ▸ ht) hx

/-! ## Purging and beginning an epoch -/

theorem slots_purgeStale (r : Registry α) (i : Nat) :
    r.purgeStale.2.slots[i]? =
      (r.slots[i]?).map fun s => if s.isStale r.epoch then s.vacate else s :=
  Array.getElem?_map

theorem mem_staleSlots {i : Nat} :
    i ∈ r.staleSlots ↔ ∃ s, r.slots[i]? = some s ∧ s.isStale r.epoch = true := by
  unfold staleSlots
  simp only [List.mem_map, List.mem_filter, Prod.exists, exists_eq_right,
    List.mem_zipIdx_iff_getElem?, Array.getElem?_toList]

theorem nodup_staleSlots (r : Registry α) : r.staleSlots.Nodup := by
  refine List.Nodup.sublist (List.filter_sublist.map Prod.snd) ?_
  rw [List.zipIdx_map_snd]
  exact List.nodup_range'

theorem Slot.entry_of_isStale {epoch : UInt64} {s : Slot α} (hs : s.isStale epoch = true) :
    ∃ e, s.entry = some e ∧ e.epoch ≠ epoch := by
  unfold PolicyReach.Slot.isStale at hs
  cases he : s.entry with
  | none =>
    rw [he] at hs
    exact absurd hs Bool.false_ne_true
  | some e =>
    rw [he, Option.any_some, bne_iff_ne] at hs
    exact ⟨e, rfl, hs⟩

theorem Slot.isStale_of_entry {epoch : UInt64} {s : Slot α} {e : Entry α} (he : s.entry = some e)
    (hne : e.epoch ≠ epoch) : s.isStale epoch = true := by
  unfold PolicyReach.Slot.isStale
  rw [he, Option.any_some, bne_iff_ne]
  exact hne

theorem Sound.purgeStale (hr : r.Sound) : r.purgeStale.2.Sound := by
  refine ⟨?_, ?_, fun i => ?_⟩
  · show (r.slots.map _).size ≤ _
    rw [Array.size_map]
    exact hr.size_le
  · show (r.staleSlots.reverse ++ r.free).Nodup
    rw [List.nodup_append]
    refine ⟨List.nodup_reverse.mpr (nodup_staleSlots r), hr.free_nodup, ?_⟩
    rintro i hi j hj rfl
    obtain ⟨s, hs, hstale⟩ := mem_staleSlots.mp (List.mem_reverse.mp hi)
    obtain ⟨e, he, -⟩ := Slot.entry_of_isStale hstale
    obtain ⟨t, ht, hvacant⟩ := (hr.mem_free_iff i).mp hj
    rw [hs] at ht
    rw [Option.some.inj ht, hvacant] at he
    exact absurd he (fun hn => nomatch hn)
  · show i ∈ r.staleSlots.reverse ++ r.free ↔ _
    rw [List.mem_append, List.mem_reverse, mem_staleSlots, hr.mem_free_iff, slots_purgeStale]
    cases r.slots[i]? with
    | none => simp
    | some s =>
      by_cases hstale : s.isStale r.epoch = true
      · simp [hstale, PolicyReach.Slot.vacate]
      · simp [hstale]

/-- Purging leaves what belongs to the current epoch. -/
theorem entry?_purgeStale {e : Entry α} (he : r.entry? h = some e) (hcur : e.epoch = r.epoch) :
    Registry.entry? r.purgeStale.2 h = some e := by
  obtain ⟨s, hs, hg, hse⟩ := entry?_eq_some_iff.mp he
  have hstale : ¬ s.isStale r.epoch = true := by
    intro hn
    obtain ⟨x, hx, hne⟩ := Slot.entry_of_isStale hn
    rw [hse] at hx
    exact hne (Option.some.inj hx ▸ hcur)
  refine entry?_eq_some_iff.mpr ⟨s, ?_, hg, hse⟩
  rw [slots_purgeStale, hs, Option.map_some, if_neg hstale]

theorem All.purgeStale {P : Entry α → Prop} (hall : r.All P) : r.purgeStale.2.All P := by
  intro i t e ht he
  rw [slots_purgeStale, Option.map_eq_some_iff] at ht
  obtain ⟨s, hs, rfl⟩ := ht
  by_cases hstale : s.isStale r.epoch = true
  · rw [if_pos hstale] at he
    exact absurd he (fun hn => nomatch hn)
  · rw [if_neg hstale] at he
    exact hall i s e hs he

theorem Sound.invalidateAll (hr : r.Sound) : r.invalidateAll.Sound :=
  ⟨hr.size_le, hr.free_nodup, hr.mem_free_iff⟩

theorem sound_empty : (empty : Registry α).Sound where
  size_le := Nat.zero_le _
  free_nodup := List.nodup_nil
  mem_free_iff i := by simp [empty]

theorem all_empty (P : Entry α → Prop) : (empty : Registry α).All P := by
  intro i s e hs
  simp [empty] at hs

/-! ## What a handle names in its own epoch -/

/-- The value that a handle names as long as its epoch lasts. -/
def own? (r : Registry α) (h : Handle) : Option α :=
  (r.entry? h).bind fun e => if e.epoch = h.epoch then some e.value else none

theorem own?_eq_some_iff :
    r.own? h = some v ↔ r.entry? h = some { epoch := h.epoch, value := v } := by
  unfold own?
  rw [Option.bind_eq_some_iff]
  constructor
  · rintro ⟨⟨epoch, value⟩, he, hv⟩
    split at hv
    · rename_i heq
      obtain rfl := Option.some.inj hv
      rw [he]
      exact congrArg (fun n => some (Entry.mk n value)) heq
    · exact nomatch hv
  · exact fun he => ⟨_, he, if_pos rfl⟩

theorem own?_iff_slot :
    r.own? h = some v ↔ ∃ s, r.slots[h.slot.toNat]? = some s ∧ s.generation = h.generation ∧
      s.entry = some { epoch := h.epoch, value := v } :=
  own?_eq_some_iff.trans entry?_eq_some_iff

/-- Of the handles with one slot, one at most names anything. -/
theorem eq_of_own? {w : α} (hv : r.own? h = some v) (hw : r.own? h' = some w)
    (hslot : h.slot = h'.slot) : h = h' := by
  obtain ⟨s, hs, hg, he⟩ := own?_iff_slot.mp hv
  obtain ⟨s', hs', hg', he'⟩ := own?_iff_slot.mp hw
  rw [hslot, hs'] at hs
  obtain rfl := Option.some.inj hs
  have hepoch := congrArg Entry.epoch (Option.some.inj (he.symm.trans he'))
  cases h
  cases h'
  simp only [Handle.mk.injEq]
  exact ⟨hslot, hg.symm.trans hg', hepoch⟩

/-- A handle resolves in its own epoch, to what it names then. -/
theorem resolve_eq_ok_iff_own? : r.resolve h = .ok v ↔ r.own? h = some v ∧ h.epoch = r.epoch := by
  rw [resolve_eq_ok_iff, own?_eq_some_iff]
  constructor
  · rintro ⟨he, hepoch⟩
    rw [hepoch]
    exact ⟨he, rfl⟩
  · rintro ⟨he, hepoch⟩
    rw [← hepoch]
    exact ⟨he, rfl⟩

theorem own?_register (hr : r.Sound) (hreg : r.register v = some (h, r')) {w : α}
    (hw : r.own? h' = some w) : Registry.own? r' h' = some w :=
  own?_eq_some_iff.mpr (entry?_register hr hreg (own?_eq_some_iff.mp hw))

/-- The handle given names the value in its own epoch. -/
theorem own?_register_self (hr : r.Sound) (hreg : r.register v = some (h, r')) :
    Registry.own? r' h = some v := by
  rw [own?_eq_some_iff, (register_spec hr hreg).1]
  exact entry?_register_self hr hreg

/-- What is named after a registration has been named before, or is the value registered, under the
handle given for it. -/
theorem own?_of_register (hr : r.Sound) (hreg : r.register v = some (h, r')) {w : α}
    (hw : Registry.own? r' h' = some w) : r.own? h' = some w ∨ h' = h ∧ w = v := by
  obtain ⟨-, -, -, -, hother⟩ := register_spec hr hreg
  have hself := own?_register_self hr hreg
  by_cases hslot : h'.slot = h.slot
  · obtain rfl := eq_of_own? hw hself hslot
    exact Or.inr ⟨rfl, Option.some.inj (hw.symm.trans hself)⟩
  · have hi : h'.slot.toNat ≠ h.slot.toNat := fun heq => hslot (UInt32.toNat_inj.mp heq)
    obtain ⟨s, hs, hg, he⟩ := own?_iff_slot.mp hw
    rw [hother _ hi] at hs
    exact Or.inl (own?_iff_slot.mpr ⟨s, hs, hg, he⟩)

/-- **Replacing what a handle names** changes what that handle names, and no other one. -/
theorem own?_replace {w : α} (hw : r.resolve h = .ok w) (v : α) (h' : Handle) :
    (r.replace h v).own? h' = if h' = h then some v else r.own? h' := by
  obtain ⟨he, hepoch⟩ := resolve_eq_ok_iff.mp hw
  have hself : (r.replace h v).own? h = some v := by
    rw [own?_eq_some_iff, hepoch]
    exact entry?_replace_self he v
  by_cases hsame : h' = h
  · rw [if_pos hsame, hsame, hself]
  · rw [if_neg hsame]
    by_cases hslot : h'.slot = h.slot
    · -- the same slot: another generation or another epoch
      have hnone {x : Registry α} {u : α} (hx : x.own? h = some u) : x.own? h' = none := by
        rw [Option.eq_none_iff_forall_not_mem]
        exact fun w' hw' => hsame (eq_of_own? hw' hx hslot)
      rw [hnone hself, hnone (resolve_eq_ok_iff_own?.mp hw).1]
    · unfold own?
      rw [entry?_replace_ne h v hslot]

/-- What a handle names is given up by destroying what stands in its place, whatever the epoch. -/
theorem own?_destroy (hd : r.destroy h = .ok (v, r')) (h' : Handle) :
    Registry.own? r' h' =
      if h'.slot = h.slot ∧ h'.generation = h.generation then none else r.own? h' := by
  unfold own?
  rw [entry?_destroy hd]
  split <;> rfl

theorem own?_purgeStale (hepoch : h.epoch = r.epoch) (hv : r.own? h = some v) :
    Registry.own? r.purgeStale.2 h = some v :=
  own?_eq_some_iff.mpr (entry?_purgeStale (own?_eq_some_iff.mp hv) hepoch)

/-- Purging gives no handle a value. -/
theorem own?_of_purgeStale (hv : Registry.own? r.purgeStale.2 h = some v) : r.own? h = some v := by
  obtain ⟨t, ht, hg, he⟩ := own?_iff_slot.mp hv
  rw [slots_purgeStale, Option.map_eq_some_iff] at ht
  obtain ⟨s, hs, rfl⟩ := ht
  by_cases hstale : s.isStale r.epoch = true
  · rw [if_pos hstale] at he
    exact nomatch he
  · rw [if_neg hstale] at hg he
    exact own?_iff_slot.mpr ⟨s, hs, hg, he⟩

/-- What is named after purging is of the current epoch. -/
theorem epoch_of_own?_purgeStale (hv : Registry.own? r.purgeStale.2 h = some v) :
    h.epoch = r.epoch := by
  obtain ⟨s, hs, hg, he⟩ := own?_iff_slot.mp (own?_of_purgeStale hv)
  obtain ⟨t, ht, -, he'⟩ := own?_iff_slot.mp hv
  rw [slots_purgeStale, hs, Option.map_some] at ht
  by_contra hne
  rw [if_pos (Slot.isStale_of_entry he hne)] at ht
  rw [← Option.some.inj ht] at he'
  exact nomatch he'

end Registry

end PolicyReach
