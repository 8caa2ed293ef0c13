import PolicyReach.Handle

/-!
# A registry of values behind handles

Values live in slots. A slot whose value is given up is used again, under the next generation, so
that the old handle no longer names it; slots given up last are used first. Advancing the epoch
makes every handle issued before stale at once; the values stay in their slots until they are
destroyed or purged.
-/

namespace PolicyReach

/-- A value with the epoch it was registered in. -/
structure Entry (α : Type) where
  epoch : UInt64
  value : α

/-- A place for one value at a time. -/
structure Slot (α : Type) where
  generation : UInt32
  entry : Option (Entry α)

/-- Values behind handles. -/
structure Registry (α : Type) where
  slots : Array (Slot α) := #[]
  /-- The vacant slots, the one vacated last in front. -/
  free : List Nat := []
  epoch : UInt64 := 0
  /-- The number of values held. -/
  live : Nat := 0

namespace Slot

variable {α : Type}

/-- The slot with its value given up. -/
def vacate (s : Slot α) : Slot α := { generation := s.generation + 1, entry := none }

/-- Does the slot hold a value of another epoch? -/
def isStale (epoch : UInt64) (s : Slot α) : Bool := s.entry.any fun e => e.epoch != epoch

end Slot

namespace Registry

variable {α : Type}

/-- The registry that holds nothing. -/
def empty : Registry α := {}

instance : Inhabited (Registry α) := ⟨empty⟩

/-- Hold a value in a slot under the current epoch. -/
def hold (r : Registry α) (generation : UInt32) (v : α) : Slot α :=
  { generation, entry := some { epoch := r.epoch, value := v } }

/-- Register a value; there is no handle for it when every slot number is taken. -/
def register (r : Registry α) (v : α) : Option (Handle × Registry α) :=
  match r.free with
  | i :: free =>
    match r.slots[i]? with
    | some s =>
      some (⟨UInt32.ofNat i, s.generation, r.epoch⟩,
        { r with slots := r.slots.setIfInBounds i (r.hold s.generation v), free, live := r.live + 1 })
    | none => none
  | [] =>
    if r.slots.size < UInt32.size then
      some (⟨UInt32.ofNat r.slots.size, 0, r.epoch⟩,
        { r with slots := r.slots.push (r.hold 0 v), live := r.live + 1 })
    else none

/-- What is held under the slot and generation of a handle, whatever the epoch. -/
def entry? (r : Registry α) (h : Handle) : Option (Entry α) :=
  match r.slots[h.slot.toNat]? with
  | some s => if s.generation = h.generation then s.entry else none
  | none => none

/-- The value a handle names. -/
def resolve (r : Registry α) (h : Handle) : Except HandleFault α :=
  match r.entry? h with
  | none => .error .unknown
  | some e =>
    if e.epoch = r.epoch ∧ h.epoch = r.epoch then .ok e.value
    else .error (.stale h.epoch r.epoch)

/-- Put another value in the place of the one a handle names. -/
def replace (r : Registry α) (h : Handle) (v : α) : Registry α :=
  { r with slots := r.slots.setIfInBounds h.slot.toNat (r.hold h.generation v) }

/-- Give up the value held under the slot and generation of a handle, stale or not. -/
def destroy (r : Registry α) (h : Handle) : Except HandleFault (α × Registry α) :=
  match r.entry? h with
  | none => .error .unknown
  | some e =>
    .ok (e.value,
      { r with
        slots := r.slots.modify h.slot.toNat Slot.vacate
        free := h.slot.toNat :: r.free
        live := r.live - 1 })

/-- Begin a new epoch. -/
def invalidateAll (r : Registry α) : Registry α := { r with epoch := r.epoch + 1 }

/-- The slots that hold a value of an earlier epoch, ascending. -/
def staleSlots (r : Registry α) : List Nat :=
  (r.slots.toList.zipIdx.filter fun s => s.1.isStale r.epoch).map Prod.snd

/-- Give up every value of an earlier epoch; also tells how many there were. -/
def purgeStale (r : Registry α) : Nat × Registry α :=
  let stale := r.staleSlots
  (stale.length,
    { r with
      slots := r.slots.map fun s => if s.isStale r.epoch then s.vacate else s
      free := stale.reverse ++ r.free
      live := r.live - stale.length })

/-- Is nothing held? -/
def isEmpty (r : Registry α) : Bool := r.live == 0

end Registry

end PolicyReach
