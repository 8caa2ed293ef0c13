import PolicyReach.Proofs.Procedure
import PolicyReach.Proofs.Registry.Slots

/-!
# Registering, changing and destroying, in place

A registry is changed field by field: its slots, the free list, the number of values held. A value is
taken out of its slot before it is known that there was one, and a vacant slot is taken off the free list
before it is filled; no failure comes after a write that has changed anything.

* `InPlace.atHandle`: a procedure on the value that a handle names;
* **`InPlace.exec_register`**, **`InPlace.exec_atHandle`**, **`InPlace.exec_destroy`**: all three change
  all or nothing.
-/

namespace PolicyReach

open Procedure

namespace Registry

variable {α : Type} {r : Registry α} {h : Handle} {v w : α}

/-- Changing what stands in a slot is putting there what it is changed to. -/
theorem modify_eq_set {slots : Array (Slot α)} {i : Nat} {s : Slot α} (hs : slots[i]? = some s)
    (f : Slot α → Slot α) : slots.modify i f = slots.setIfInBounds i (f s) := by
  refine Array.ext_getElem? fun j => ?_
  rw [Array.getElem?_modify, Array.getElem?_setIfInBounds]
  by_cases hj : i = j
  · subst hj
    rw [if_pos rfl, if_pos rfl, if_pos (Array.getElem?_eq_some_iff.mp hs).1, hs, Option.map_some]
  · rw [if_neg hj, if_neg hj]

theorem modify_eq_self {slots : Array (Slot α)} {i : Nat} {s : Slot α} (hs : slots[i]? = some s)
    {f : Slot α → Slot α} (hf : f s = s) : slots.modify i f = slots := by
  refine Array.ext_getElem? fun j => ?_
  rw [Array.getElem?_modify]
  split
  · rename_i hj
    subst hj
    rw [hs, Option.map_some, hf]
  · rfl

/-- The registry with another value in the slot of a handle, nothing else of the slot changed. -/
def overwrite (r : Registry α) (h : Handle) (v : α) : Registry α :=
  { r with
    slots := r.slots.modify h.slot.toNat fun s =>
      { s with entry := s.entry.map fun e => { e with value := v } } }

theorem overwrite_eq_replace (hv : r.resolve h = .ok w) (v : α) : r.overwrite h v = r.replace h v := by
  obtain ⟨he, -⟩ := resolve_eq_ok_iff.mp hv
  obtain ⟨s, hs, hgeneration, hentry⟩ := entry?_eq_some_iff.mp he
  unfold overwrite replace
  rw [modify_eq_set hs, hentry, hgeneration]
  rfl

/-- Writing a value where it stands already changes nothing. -/
theorem overwrite_self (hv : r.resolve h = .ok v) : r.overwrite h v = r := by
  obtain ⟨he, -⟩ := resolve_eq_ok_iff.mp hv
  obtain ⟨⟨generation, entry⟩, hs, -, hentry⟩ := entry?_eq_some_iff.mp he
  obtain rfl : entry = _ := hentry
  unfold overwrite
  rw [modify_eq_self hs rfl]

theorem replace_self (hv : r.resolve h = .ok v) : r.replace h v = r :=
  (overwrite_eq_replace hv v).symm.trans (overwrite_self hv)

end Registry

namespace InPlace

variable {α β : Type} {r : Registry α} {h : Handle}

/-- Register a value. A vacant slot is taken off the free list; if there is none, another slot is added
unless every slot number is taken. -/
def register (v : α) : Procedure (Registry α) Handle := do
  let r ← get
  match r.free with
  | i :: free =>
    modify fun r => { r with free }
    modify fun r =>
      { r with
        slots := r.slots.modify i fun s => { s with entry := some { epoch := r.epoch, value := v } } }
    modify fun r => { r with live := r.live + 1 }
    let r ← get
    pure ⟨UInt32.ofNat i, (r.slots[i]?).elim 0 Slot.generation, r.epoch⟩
  | [] =>
    if r.slots.size < UInt32.size then
      modify fun r => { r with slots := r.slots.push (r.hold 0 v) }
      modify fun r => { r with live := r.live + 1 }
      pure ⟨UInt32.ofNat r.slots.size, 0, r.epoch⟩
    else
      throw (.allocation .registryFull)

/-- **Registering changes all or nothing.** -/
theorem exec_register (hr : r.Sound) (v : α) :
    exec (register v) r =
      settle r ((r.register v).elim (.error (.allocation .registryFull)) .ok) := by
  unfold register Registry.register
  rw [exec_get_bind]
  cases hfree : r.free with
  | cons i free =>
    obtain ⟨s, hs, -⟩ := (hr.mem_free_iff i).mp (hfree ▸ List.mem_cons_self)
    have hslots := Registry.modify_eq_set hs fun s =>
      { s with entry := some { epoch := r.epoch, value := v } }
    have hgeneration : ((r.slots.setIfInBounds i (r.hold s.generation v))[i]?).elim 0 Slot.generation =
        s.generation := by
      rw [Array.getElem?_setIfInBounds_self_of_lt (Array.getElem?_eq_some_iff.mp hs).1]
      rfl
    dsimp only
    rw [exec_bind_ok (exec_modify _ r), exec_bind_ok (exec_modify _ _), exec_bind_ok (exec_modify _ _),
      exec_get_bind, exec_pure]
    dsimp only
    rw [hslots]
    dsimp only [Registry.hold] at hgeneration
    rw [hgeneration, hs]
    rfl
  | nil =>
    dsimp only
    by_cases hsize : r.slots.size < UInt32.size
    · rw [if_pos hsize, if_pos hsize, exec_bind_ok (exec_modify _ r), exec_bind_ok (exec_modify _ _),
        exec_pure, hfree]
      rfl
    · rw [if_neg hsize, if_neg hsize]
      rfl

/-- Do something to the value that a handle names, where it stands. -/
def atHandle (h : Handle) (x : Procedure α β) : Procedure (Registry α) β := do
  let r ← get
  let v ← ofExcept ((r.resolve h).mapError (.invalidHandle h))
  inside (fun _ => v) (fun r v => r.overwrite h v) x

theorem exec_atHandle_error {x : Procedure α β} {fault : HandleFault}
    (hf : r.resolve h = .error fault) :
    exec (atHandle h x) r = (.error (.invalidHandle h fault), r) := by
  unfold atHandle
  rw [exec_get_bind, hf]
  rfl

/-- **What changes all or nothing of a value**, changes all or nothing of the registry that holds it. -/
theorem exec_atHandle {x : Procedure α β} {v : α} {y : Except AnalysisError (β × α)}
    (hv : r.resolve h = .ok v) (hx : exec x v = settle v y) :
    exec (atHandle h x) r = settle r (y.map fun y => (y.1, r.replace h y.2)) := by
  have hinside : exec (atHandle h x) r = ((exec x v).1, r.overwrite h (exec x v).2) := by
    unfold atHandle
    rw [exec_get_bind, hv]
    rfl
  rw [hinside, hx]
  cases y with
  | error e => exact congrArg (Prod.mk _) (Registry.overwrite_self hv)
  | ok y => exact congrArg (Prod.mk _) (Registry.overwrite_eq_replace hv y.2)

/-- Give up what stands in the place that a handle names. It is taken out of its slot first, and only then
it is seen whether there was anything. -/
def destroy (h : Handle) : Procedure (Registry α) α := do
  let r ← get
  match r.slots[h.slot.toNat]? with
  | none => throw (.invalidHandle h .unknown)
  | some s =>
    if s.generation = h.generation then
      modify fun r =>
        { r with slots := r.slots.modify h.slot.toNat fun s => { s with entry := none } }
      match s.entry with
      | none => throw (.invalidHandle h .unknown)
      | some e =>
        modify fun r =>
          { r with
            slots := r.slots.modify h.slot.toNat fun s => { s with generation := s.generation + 1 } }
        modify fun r => { r with free := h.slot.toNat :: r.free }
        modify fun r => { r with live := r.live - 1 }
        pure e.value
    else
      throw (.invalidHandle h .unknown)

/-- **Destroying changes all or nothing.** -/
theorem exec_destroy (r : Registry α) (h : Handle) :
    exec (destroy h) r = settle r ((r.destroy h).mapError (.invalidHandle h)) := by
  unfold destroy Registry.destroy Registry.entry?
  rw [exec_get_bind]
  cases hs : r.slots[h.slot.toNat]? with
  | none => rfl
  | some s =>
    dsimp only
    by_cases hgeneration : s.generation = h.generation
    · rw [if_pos hgeneration, if_pos hgeneration, exec_bind_ok (exec_modify _ r)]
      cases hentry : s.entry with
      | none =>
        -- what is written over the vacant slot is what it holds
        obtain ⟨generation, entry⟩ := s
        obtain rfl : entry = none := hentry
        have hsame := Registry.modify_eq_self hs (f := fun s => { s with entry := none }) rfl
        dsimp only
        rw [hsame]
        rfl
      | some e =>
        have hslots : (r.slots.modify h.slot.toNat fun s => { s with entry := none }).modify
            h.slot.toNat (fun s => { s with generation := s.generation + 1 }) =
              r.slots.modify h.slot.toNat Slot.vacate := by
          have hput := Registry.modify_eq_set hs fun s => { s with entry := none }
          have hlt := (Array.getElem?_eq_some_iff.mp hs).1
          rw [hput, Registry.modify_eq_set (Array.getElem?_setIfInBounds_self_of_lt hlt),
            Array.setIfInBounds_setIfInBounds, Registry.modify_eq_set hs]
          rfl
        dsimp only
        rw [exec_bind_ok (exec_modify _ _), exec_bind_ok (exec_modify _ _),
          exec_bind_ok (exec_modify _ _), exec_pure]
        dsimp only
        rw [hslots]
        rfl
    · rw [if_neg hgeneration, if_neg hgeneration]
      rfl

end InPlace

end PolicyReach
