import PolicyReach.Proofs.Registry.Slots

/-!
# Runs of registry operations

A registry is used by operations (`Op`), one after another; each gives a `Reply` and leaves the registry
in another state (`Registry.perform`). Whatever the operation, little can happen to a slot
(`Slot.Change`), and its generation counts how often it has been given up.

* `performs`: everything that an operation can give, and make of a registry;
* **`Performs.change`**: what an operation does to any slot;
* **`generation_after`**: over a run, the generation of a slot advances by the number of times that it
  has been given up (`Registry.frees`), as a word.
-/

namespace PolicyReach

/-- What can happen to a slot. -/
inductive Slot.Change {α : Type} : Option (Slot α) → Option (Slot α) → Prop
  | same (s : Option (Slot α)) : Change s s
  | added (e : Entry α) : Change none (some ⟨0, some e⟩)
  | filled (g : UInt32) (e : Entry α) : Change (some ⟨g, none⟩) (some ⟨g, some e⟩)
  | replaced (g : UInt32) (e e' : Entry α) : Change (some ⟨g, some e⟩) (some ⟨g, some e'⟩)
  | vacated (g : UInt32) (e : Entry α) : Change (some ⟨g, some e⟩) (some ⟨g + 1, none⟩)

theorem Slot.Change.isSome {α : Type} {s s' : Option (Slot α)} (h : Slot.Change s s')
    (hs : s.isSome = true) : s'.isSome = true := by
  cases h with
  | same => exact hs
  | added | filled | replaced | vacated => rfl

namespace Registry

/-- An operation on a registry with its arguments. -/
inductive Op (α : Type) where
  | register (v : α)
  | resolve (h : Handle)
  /-- Look up the value that a handle names, and put what is made of it in its place. -/
  | modify (h : Handle) (f : α → α)
  | destroy (h : Handle)
  | purgeStale
  | invalidateAll

/-- What an operation gives. -/
inductive Reply (α : Type) where
  | registered (h : Handle)
  | full
  | value (v : α)
  | fault (f : HandleFault)
  | purged (count : Nat)
  | epoch (e : UInt64)

/-- The handle that an operation is given. -/
def Op.handle? {α : Type} : Op α → Option Handle
  | .resolve h | .modify h _ | .destroy h => some h
  | _ => none

/-- The handle that is given out. -/
def Reply.handle? {α : Type} : Reply α → Option Handle
  | .registered h => some h
  | _ => none

variable {α : Type}

/-- Perform an operation. -/
def perform (r : Registry α) : Op α → Reply α × Registry α
  | .register v =>
    match r.register v with
    | some (h, r) => (.registered h, r)
    | none => (.full, r)
  | .resolve h =>
    match r.resolve h with
    | .ok v => (.value v, r)
    | .error f => (.fault f, r)
  | .modify h f =>
    match r.resolve h with
    | .ok v => (.value v, r.replace h (f v))
    | .error e => (.fault e, r)
  | .destroy h =>
    match r.destroy h with
    | .ok (v, r) => (.value v, r)
    | .error f => (.fault f, r)
  | .purgeStale =>
    let (count, r) := r.purgeStale
    (.purged count, r)
  | .invalidateAll =>
    let r := r.invalidateAll
    (.epoch r.epoch, r)

/-- The registry after a run. -/
def after (r : Registry α) (ops : List (Op α)) : Registry α :=
  ops.foldl (fun r op => (r.perform op).2) r

/-- The operations of a run, each with its reply. -/
def trace (r : Registry α) : List (Op α) → List (Op α × Reply α)
  | [] => []
  | op :: ops => (op, (r.perform op).1) :: trace (r.perform op).2 ops

/-- The handles that a run gives out. -/
def issued (r : Registry α) (ops : List (Op α)) : List Handle :=
  (r.trace ops).filterMap fun x => x.2.handle?

@[simp]
theorem after_nil (r : Registry α) : r.after [] = r := rfl

@[simp]
theorem after_cons (r : Registry α) (op : Op α) (ops : List (Op α)) :
    r.after (op :: ops) = (r.perform op).2.after ops := rfl

theorem after_append (r : Registry α) (ops ops' : List (Op α)) :
    r.after (ops ++ ops') = (r.after ops).after ops' :=
  List.foldl_append

theorem trace_append (r : Registry α) (ops ops' : List (Op α)) :
    r.trace (ops ++ ops') = r.trace ops ++ (r.after ops).trace ops' := by
  induction ops generalizing r with
  | nil => rfl
  | cons op ops ih => simp only [List.cons_append, trace, after_cons, ih]

/-! ## One operation -/

/-- What an operation gives, and what it makes of the registry. -/
inductive Performs (r : Registry α) : Op α → Reply α → Registry α → Prop
  | registered {v : α} {h : Handle} {r' : Registry α} (registers : r.register v = some (h, r')) :
      Performs r (.register v) (.registered h) r'
  | full {v : α} (fails : r.register v = none) : Performs r (.register v) .full r
  | found {h : Handle} {v : α} (resolves : r.resolve h = .ok v) :
      Performs r (.resolve h) (.value v) r
  | modified {h : Handle} {v : α} (f : α → α) (resolves : r.resolve h = .ok v) :
      Performs r (.modify h f) (.value v) (r.replace h (f v))
  | notFound {op : Op α} {h : Handle} {fault : HandleFault}
      (looks : op = .resolve h ∨ ∃ f, op = .modify h f) (fails : r.resolve h = .error fault) :
      Performs r op (.fault fault) r
  | destroyed {h : Handle} {v : α} {r' : Registry α} (destroys : r.destroy h = .ok (v, r')) :
      Performs r (.destroy h) (.value v) r'
  | notDestroyed {h : Handle} {fault : HandleFault} (fails : r.destroy h = .error fault) :
      Performs r (.destroy h) (.fault fault) r
  | purged : Performs r .purgeStale (.purged r.purgeStale.1) r.purgeStale.2
  | invalidated : Performs r .invalidateAll (.epoch (r.epoch + 1)) r.invalidateAll

theorem performs (r : Registry α) (op : Op α) : r.Performs op (r.perform op).1 (r.perform op).2 := by
  cases op with
  | register v =>
    unfold perform
    cases h : r.register v with
    | none =>
      simp only [h]
      exact .full h
    | some x =>
      simp only [h]
      exact .registered h
  | resolve h =>
    unfold perform
    cases hv : r.resolve h with
    | error fault =>
      simp only [hv]
      exact .notFound (Or.inl rfl) hv
    | ok v =>
      simp only [hv]
      exact .found hv
  | modify h f =>
    unfold perform
    cases hv : r.resolve h with
    | error fault =>
      simp only [hv]
      exact .notFound (Or.inr ⟨f, rfl⟩) hv
    | ok v =>
      simp only [hv]
      exact .modified f hv
  | destroy h =>
    unfold perform
    cases hd : r.destroy h with
    | error fault =>
      simp only [hd]
      exact .notDestroyed hd
    | ok x =>
      simp only [hd]
      exact .destroyed hd
  | purgeStale => exact .purged
  | invalidateAll => exact .invalidated

/-- Does slot `i` hold a value? -/
def occupied (r : Registry α) (i : Nat) : Bool := (r.slots[i]?).any fun s => s.entry.isSome

/-- The generation of slot `i`, or that of a new one. -/
def generation (r : Registry α) (i : Nat) : UInt32 := (r.slots[i]?).elim 0 Slot.generation

theorem generation_empty (i : Nat) : (empty : Registry α).generation i = 0 := by
  unfold generation
  rw [show (empty : Registry α).slots[i]? = none from Array.getElem?_eq_none (Nat.zero_le i)]
  rfl

/-- Does the operation give up the value of slot `i`? -/
def vacates (r : Registry α) (op : Op α) (i : Nat) : Bool :=
  r.occupied i && !(r.perform op).2.occupied i

/-- The number of times that a run gives up the value of slot `i`. -/
def frees (r : Registry α) (i : Nat) : List (Op α) → Nat
  | [] => 0
  | op :: ops => (r.vacates op i).toNat + frees (r.perform op).2 i ops

variable {r r' : Registry α} {h : Handle} {v : α}

theorem change_register (hr : r.Sound) (hreg : r.register v = some (h, r')) (i : Nat) :
    Slot.Change r.slots[i]? r'.slots[i]? := by
  obtain ⟨-, -, hself, hvacant, hother⟩ := register_spec hr hreg
  have hgen := register_generation hr hreg
  by_cases hi : i = h.slot.toNat
  · subst hi
    rw [hself]
    cases hs : r.slots[h.slot.toNat]? with
    | none =>
      rw [hs, Option.elim_none] at hgen
      rw [← hgen]
      exact .added _
    | some s =>
      rw [hs, Option.elim_some] at hgen
      have hnone := hvacant s hs
      obtain ⟨g, entry⟩ := s
      obtain rfl : entry = none := hnone
      rw [← hgen]
      exact .filled g _
  · rw [hother i hi]
    exact .same _

theorem change_replace {w : α} (hw : r.resolve h = .ok w) (v : α) (i : Nat) :
    Slot.Change r.slots[i]? (r.replace h v).slots[i]? := by
  obtain ⟨he, -⟩ := resolve_eq_ok_iff.mp hw
  by_cases hi : i = h.slot.toNat
  · obtain ⟨⟨g, entry⟩, hs, hg, hse⟩ := entry?_eq_some_iff.mp he
    obtain rfl : g = h.generation := hg
    obtain rfl : entry = _ := hse
    rw [hi, slots_replace_self he, hs]
    exact .replaced _ _ _
  · rw [slots_replace_ne h v hi]
    exact .same _

theorem change_destroy (hd : r.destroy h = .ok (v, r')) (i : Nat) :
    Slot.Change r.slots[i]? r'.slots[i]? := by
  obtain ⟨-, -, ⟨⟨g, entry⟩, e, hs, -, hse, -, hself⟩, hother⟩ := destroy_spec hd
  obtain rfl : entry = some e := hse
  by_cases hi : i = h.slot.toNat
  · rw [hi, hs, hself]
    exact .vacated g e
  · rw [hother i hi]
    exact .same _

theorem change_purgeStale (r : Registry α) (i : Nat) :
    Slot.Change r.slots[i]? r.purgeStale.2.slots[i]? := by
  rw [slots_purgeStale]
  cases r.slots[i]? with
  | none => exact .same _
  | some s =>
    rw [Option.map_some]
    split
    · rename_i hstale
      obtain ⟨e, he, -⟩ := Slot.entry_of_isStale hstale
      obtain ⟨g, entry⟩ := s
      obtain rfl : entry = some e := he
      exact .vacated g e
    · exact .same _

theorem Performs.sound {op : Op α} {reply : Reply α} (hr : r.Sound) (h : r.Performs op reply r') :
    r'.Sound := by
  cases h with
  | registered hreg => exact hr.register hreg
  | full | found | notFound | notDestroyed => exact hr
  | modified f resolves => exact hr.replace (resolve_eq_ok_iff.mp resolves).1 _
  | destroyed hd => exact hr.destroy hd
  | purged => exact hr.purgeStale
  | invalidated => exact hr.invalidateAll

/-- **What an operation does to any slot.** -/
theorem Performs.change {op : Op α} {reply : Reply α} (hr : r.Sound) (h : r.Performs op reply r')
    (i : Nat) : Slot.Change r.slots[i]? r'.slots[i]? := by
  cases h with
  | registered hreg => exact change_register hr hreg i
  | full | found | notFound | notDestroyed | invalidated => exact .same _
  | modified f resolves => exact change_replace resolves _ i
  | destroyed hd => exact change_destroy hd i
  | purged => exact change_purgeStale r i

/-- An operation advances the generation of the slots whose values it gives up. -/
theorem Performs.generation {op : Op α} {reply : Reply α} (hr : r.Sound)
    (h : r.Performs op reply r') (i : Nat) :
    r'.generation i = r.generation i + UInt32.ofNat (r.occupied i && !r'.occupied i).toNat := by
  have hchange := h.change hr i
  unfold Registry.generation occupied
  generalize r.slots[i]? = s at hchange
  generalize r'.slots[i]? = s' at hchange
  cases hchange with
  | same s => cases s.any fun s => s.entry.isSome <;> exact (UInt32.add_zero _).symm
  | added e => rfl
  | filled g e => exact (UInt32.add_zero _).symm
  | replaced g e e' => exact (UInt32.add_zero _).symm
  | vacated g e => rfl

/-- No operation takes a slot away. -/
theorem Performs.size_le {op : Op α} {reply : Reply α} (hr : r.Sound) (h : r.Performs op reply r') :
    r.slots.size ≤ r'.slots.size := by
  by_contra hlt
  have hsome := (h.change hr r'.slots.size).isSome
    (by rw [Array.getElem?_eq_getElem (Nat.lt_of_not_le hlt)]; rfl)
  rw [Array.getElem?_eq_none (Nat.le_refl _)] at hsome
  exact nomatch hsome

/-! ## Runs -/

theorem after_sound (hr : r.Sound) (ops : List (Op α)) : (r.after ops).Sound := by
  induction ops generalizing r with
  | nil => exact hr
  | cons op ops ih => exact ih ((r.performs op).sound hr)

/-- **The generation of a slot counts how often it has been given up**, as a word. -/
theorem generation_after (hr : r.Sound) (ops : List (Op α)) (i : Nat) :
    (r.after ops).generation i = r.generation i + UInt32.ofNat (r.frees i ops) := by
  induction ops generalizing r with
  | nil => exact (UInt32.add_zero _).symm
  | cons op ops ih =>
    rw [after_cons, ih ((r.performs op).sound hr), (r.performs op).generation hr, frees,
      UInt32.ofNat_add, UInt32.add_assoc]
    rfl

theorem frees_append (r : Registry α) (i : Nat) (ops ops' : List (Op α)) :
    r.frees i (ops ++ ops') = r.frees i ops + (r.after ops).frees i ops' := by
  induction ops generalizing r with
  | nil => exact (Nat.zero_add _).symm
  | cons op ops ih => simp only [List.cons_append, frees, after_cons, ih, Nat.add_assoc]

theorem frees_le_length (r : Registry α) (i : Nat) (ops : List (Op α)) :
    r.frees i ops ≤ ops.length := by
  induction ops generalizing r with
  | nil => exact Nat.le_refl 0
  | cons op ops ih =>
    have hone := Bool.toNat_le (r.vacates op i)
    have hrest := ih (r.perform op).2
    rw [frees, List.length_cons]
    omega

end Registry

end PolicyReach
