import Mathlib.Data.List.Induction
import PolicyReach.Ordered.Map
import PolicyReach.Proofs.Registry.Isolation

/-!
# A registry keeps a ledger

Seen from outside, a registry is a finite map from the handles that it has given out to the values
registered for them. `Ledger` is that map and nothing else: no slots, no generations, no list of vacant
places. `Ledger.Step` says what each operation may answer then.

A registry answers as the ledger does over every run that hands in handles it has been given, and that
does not exhaust the words in which slots, generations and epochs are counted (`Orderly`).

* `Matches`: a registry and a ledger hold the same;
* **`Matches.step`**: every operation is answered as the ledger allows, and keeps the two in step;
* **`refines_ledger`**: so is every operation of a run, and as many values are held as the ledger has.
-/

namespace PolicyReach

namespace Registry

/-- Does the operation begin a new epoch? -/
def Op.invalidates {α : Type} : Op α → Bool
  | .invalidateAll => true
  | _ => false

/-- A value that has been registered, and the epoch in which it was. -/
structure Deposit (α : Type) where
  value : α
  epoch : Nat

/-- Which handles have been given out, and what is held under them. -/
structure Ledger (α : Type) where
  issued : List Handle := []
  held : OrdMap Handle (Deposit α) := ∅
  /-- The number of epochs that have ended. -/
  epochs : Nat := 0

namespace Ledger

variable {α : Type}

/-- What has been registered in earlier epochs. -/
def stale (l : Ledger α) : OrdMap Handle (Deposit α) :=
  l.held.filter fun _ d => d.epoch != l.epochs

/-- What an operation may answer, and what becomes of the ledger. -/
inductive Step (l : Ledger α) : Op α → Reply α → Ledger α → Prop
  | registered {v : α} {h : Handle} (fresh : h ∉ l.issued) :
      Step l (.register v) (.registered h)
        { l with issued := h :: l.issued, held := l.held.insert h ⟨v, l.epochs⟩ }
  | found {h : Handle} {d : Deposit α} (held : l.held.get? h = some d) (current : d.epoch = l.epochs) :
      Step l (.resolve h) (.value d.value) l
  | modified {h : Handle} {d : Deposit α} (f : α → α) (held : l.held.get? h = some d)
      (current : d.epoch = l.epochs) :
      Step l (.modify h f) (.value d.value)
        { l with held := l.held.insert h { d with value := f d.value } }
  | stale {op : Op α} {h : Handle} {d : Deposit α} (looks : op = .resolve h ∨ ∃ f, op = .modify h f)
      (held : l.held.get? h = some d) (old : d.epoch ≠ l.epochs) :
      Step l op (.fault (.stale (UInt64.ofNat d.epoch) (UInt64.ofNat l.epochs))) l
  | destroyed {h : Handle} {d : Deposit α} (held : l.held.get? h = some d) :
      Step l (.destroy h) (.value d.value) { l with held := l.held.erase h }
  | unknown {op : Op α} {h : Handle} (about : op.handle? = some h) (gone : l.held.get? h = none) :
      Step l op (.fault .unknown) l
  | purged :
      Step l .purgeStale (.purged l.stale.size)
        { l with held := l.held.filter fun _ d => d.epoch == l.epochs }
  | invalidated :
      Step l .invalidateAll (.epoch (UInt64.ofNat (l.epochs + 1))) { l with epochs := l.epochs + 1 }

/-- The ledger that a run leaves, if every operation is answered as the ledger of its time allows. -/
inductive Keeps : List (Op α × Reply α) → Ledger α → Prop
  | nil : Keeps [] {}
  | snoc {run : List (Op α × Reply α)} {l l' : Ledger α} {op : Op α} {reply : Reply α}
      (kept : Keeps run l) (step : l.Step op reply l') : Keeps (run ++ [(op, reply)]) l'

theorem Step.issued {l l' : Ledger α} {op : Op α} {reply : Reply α} (h : l.Step op reply l') :
    l'.issued = reply.handle?.toList ++ l.issued := by
  cases h <;> rfl

theorem Step.epochs {l l' : Ledger α} {op : Op α} {reply : Reply α} (h : l.Step op reply l') :
    l'.epochs = l.epochs + op.invalidates.toNat := by
  cases h with
  | stale looks =>
    rcases looks with rfl | ⟨f, rfl⟩
    · rfl
    · rfl
  | @unknown op h about gone =>
    cases op with
    | invalidateAll => exact nomatch about
    | _ => rfl
  | _ => rfl

end Ledger

variable {α : Type} {r r' : Registry α} {l : Ledger α} {h : Handle} {v : α} {op : Op α}
  {reply : Reply α}

/-! ## A registry and its ledger -/

/-- A registry holds what a ledger has, under the handles that it has given out. -/
structure Matches (r : Registry α) (l : Ledger α) : Prop where
  sound : r.Sound
  epoch : r.epoch.toNat = l.epochs
  held : ∀ h, l.held.get? h = (r.own? h).map fun v => ⟨v, h.epoch.toNat⟩
  /-- A handle that names nothing any more is of an earlier generation of its slot. -/
  issued : ∀ h ∈ l.issued, h.slot.toNat < r.slots.size ∧
    ((∃ v, r.own? h = some v) ∨ h.generation.toNat < (r.generation h.slot.toNat).toNat)
  live : r.live = l.held.size

theorem matches_empty : Matches (empty : Registry α) {} where
  sound := sound_empty
  epoch := rfl
  held h := by
    have hnone : (empty : Registry α).own? h = none := by
      unfold own? entry?
      rw [show (empty : Registry α).slots[h.slot.toNat]? = none from
        Array.getElem?_eq_none (Nat.zero_le _)]
      rfl
    rw [hnone]
    exact OrdMap.get?_empty h
  issued _ hh := nomatch hh
  live := rfl

namespace Matches

theorem held_iff (hm : r.Matches l) {d : Deposit α} :
    l.held.get? h = some d ↔ ∃ v, r.own? h = some v ∧ d = ⟨v, h.epoch.toNat⟩ := by
  rw [hm.held, Option.map_eq_some_iff]
  exact exists_congr fun v => and_congr_right fun _ => eq_comm

theorem held_none_iff (hm : r.Matches l) : l.held.get? h = none ↔ r.own? h = none := by
  rw [hm.held, Option.map_eq_none_iff]

theorem ofNat_epoch (hm : r.Matches l) : UInt64.ofNat l.epochs = r.epoch := by
  rw [← hm.epoch]
  exact UInt64.ofNat_toNat

/-- What stands in the place of a handle that has been given out is its own. -/
theorem own?_of_entry? (hm : r.Matches l) (hh : h ∈ l.issued) {e : Entry α}
    (he : r.entry? h = some e) : r.own? h = some e.value := by
  have hh : r.Accounts h := (hm.issued h hh).2
  exact hh.own?_of_entry? he

/-- What stands in the place of a handle that has been given out is held under it. -/
theorem held_of_entry? (hm : r.Matches l) (hh : h ∈ l.issued) {e : Entry α}
    (he : r.entry? h = some e) : e.epoch = h.epoch ∧ l.held.get? h = some ⟨e.value, h.epoch.toNat⟩ := by
  have hown := hm.own?_of_entry? hh he
  rw [own?_eq_some_iff, he] at hown
  refine ⟨congrArg Entry.epoch (Option.some.inj hown), hm.held_iff.mpr ⟨e.value, ?_, rfl⟩⟩
  exact hm.own?_of_entry? hh he

theorem held_none_of_entry? (hm : r.Matches l) (he : r.entry? h = none) : l.held.get? h = none := by
  rw [hm.held_none_iff]
  unfold own?
  rw [he]
  rfl

/-! ## One operation -/

/-- A value is registered under a new handle, in a place where nothing is held. -/
theorem fresh (hm : r.Matches l) (hreg : r.register v = some (h, r')) :
    r.own? h = none ∧ h ∉ l.issued := by
  obtain ⟨-, -, -, hvacant, -⟩ := register_spec hm.sound hreg
  have hnone : r.own? h = none := by
    rw [Option.eq_none_iff_forall_not_mem]
    intro w hw
    obtain ⟨s, hs, -, he⟩ := own?_iff_slot.mp hw
    exact nomatch (hvacant s hs).symm.trans he
  refine ⟨hnone, fun hh => ?_⟩
  obtain ⟨-, ⟨w, hw⟩ | hlt⟩ := hm.issued h hh
  · exact nomatch hnone.symm.trans hw
  · have hgen : r.generation h.slot.toNat = h.generation := register_generation hm.sound hreg
    rw [hgen] at hlt
    exact Nat.lt_irrefl _ hlt

/-- Handles that have been given out name something, or are of an earlier generation, as long as no
generation wraps around. -/
theorem issued_step (hm : r.Matches l) (hop : r.Performs op reply r')
    (hgen : ∀ i, r.occupied i = true → r'.occupied i = false →
      (r.generation i).toNat + 1 < UInt32.size)
    (hh : h ∈ l.issued) : h.slot.toNat < r'.slots.size ∧ r'.Accounts h := by
  obtain ⟨hslot, haccounts⟩ := hm.issued h hh
  exact ⟨Nat.lt_of_lt_of_le hslot (hop.size_le hm.sound), hop.accounts hm.sound (hgen _) haccounts⟩

theorem registered (hm : r.Matches l) (hreg : r.register v = some (h, r'))
    (hgen : ∀ i, r.occupied i = true → r'.occupied i = false →
      (r.generation i).toNat + 1 < UInt32.size) :
    Matches r' { l with issued := h :: l.issued, held := l.held.insert h ⟨v, l.epochs⟩ } := by
  obtain ⟨hissue, hepoch, hself, -, -⟩ := register_spec hm.sound hreg
  obtain ⟨hnone, -⟩ := hm.fresh hreg
  refine ⟨hm.sound.register hreg, hepoch ▸ hm.epoch, fun h' => ?_, fun h' hh => ?_, ?_⟩
  · rw [OrdMap.get?_insert]
    by_cases hsame : h' = h
    · rw [if_pos hsame, hsame, own?_register_self hm.sound hreg, Option.map_some, hissue, hm.epoch]
    · rw [if_neg hsame, hm.held]
      congr 1
      refine Option.ext fun w => ⟨fun hw => own?_register hm.sound hreg hw, fun hw => ?_⟩
      exact (own?_of_register hm.sound hreg hw).resolve_right fun hnew => hsame hnew.1
  · rcases List.mem_cons.mp hh with rfl | hold
    · exact ⟨(Array.getElem?_eq_some_iff.mp hself).1, Or.inl ⟨v, own?_register_self hm.sound hreg⟩⟩
    · exact hm.issued_step (.registered hreg) hgen hold
  · rw [live_register hreg, hm.live]
    exact (OrdMap.size_insert_of_none (hm.held_none_iff.mpr hnone) _).symm

theorem modified (hm : r.Matches l) (hv : r.resolve h = .ok v) (f : α → α)
    (hgen : ∀ i, r.occupied i = true → (r.replace h (f v)).occupied i = false →
      (r.generation i).toNat + 1 < UInt32.size) :
    Matches (r.replace h (f v)) { l with held := l.held.insert h ⟨f v, h.epoch.toNat⟩ } := by
  obtain ⟨hown, -⟩ := resolve_eq_ok_iff_own?.mp hv
  have hheld : l.held.get? h = some ⟨v, h.epoch.toNat⟩ := hm.held_iff.mpr ⟨v, hown, rfl⟩
  refine ⟨hm.sound.replace (resolve_eq_ok_iff.mp hv).1 _, hm.epoch, fun h' => ?_, fun h' hh => ?_, ?_⟩
  · rw [OrdMap.get?_insert, own?_replace hv]
    by_cases hsame : h' = h
    · rw [if_pos hsame, if_pos hsame, hsame]
      rfl
    · rw [if_neg hsame, if_neg hsame, hm.held]
  · exact hm.issued_step (.modified f hv) hgen hh
  · rw [OrdMap.size_insert_of_some hheld]
    exact hm.live

theorem destroyed (hm : r.Matches l) (hd : r.destroy h = .ok (v, r')) (hown : r.own? h = some v)
    (hgen : ∀ i, r.occupied i = true → r'.occupied i = false →
      (r.generation i).toNat + 1 < UInt32.size) :
    Matches r' { l with held := l.held.erase h } := by
  have hepoch := (destroy_spec hd).1
  refine ⟨hm.sound.destroy hd, hepoch ▸ hm.epoch, fun h' => ?_, fun h' hh => ?_, ?_⟩
  · rw [OrdMap.get?_erase, own?_destroy hd]
    by_cases hsame : h' = h
    · rw [if_pos hsame, hsame, if_pos ⟨rfl, rfl⟩]
      rfl
    · rw [if_neg hsame, hm.held]
      split
      · rename_i hplace
        -- another epoch in the same place: nothing is named so
        have hnone : r.own? h' = none := by
          rw [Option.eq_none_iff_forall_not_mem]
          exact fun w hw => hsame (eq_of_own? hw hown hplace.1)
        rw [hnone]
      · rfl
  · exact hm.issued_step (.destroyed hd) hgen hh
  · have hheld : l.held.get? h = some ⟨v, h.epoch.toNat⟩ := hm.held_iff.mpr ⟨v, hown, rfl⟩
    rw [OrdMap.size_erase_of_some hheld, live_destroy hd, hm.live]

/-- The slots that a purge vacates are those of what has been registered in earlier epochs. -/
theorem mem_staleSlots_iff (hm : r.Matches l) {i : Nat} :
    i ∈ r.staleSlots ↔ ∃ x ∈ l.stale.entries, x.1.slot.toNat = i := by
  simp only [Prod.exists, ← OrdMap.get?_eq_some_iff, Ledger.stale, OrdMap.get?_filter,
    Option.filter_eq_some_iff, hm.held_iff, bne_iff_ne]
  constructor
  · intro hi
    obtain ⟨s, hs, hstale⟩ := mem_staleSlots.mp hi
    obtain ⟨e, he, hne⟩ := Slot.entry_of_isStale hstale
    have hlt := (Array.getElem?_eq_some_iff.mp hs).1
    have hslot : (UInt32.ofNat i).toNat = i :=
      UInt32.toNat_ofNat_of_lt (Nat.lt_of_lt_of_le hlt hm.sound.size_le)
    refine ⟨⟨UInt32.ofNat i, s.generation, e.epoch⟩, _, ⟨⟨e.value, ?_, rfl⟩, fun heq => hne ?_⟩, hslot⟩
    · exact own?_iff_slot.mpr ⟨s, hslot.symm ▸ hs, rfl, he⟩
    · exact UInt64.toNat_inj.mp (heq.trans hm.epoch.symm)
  · rintro ⟨h, d, ⟨⟨v, hv, rfl⟩, hne⟩, rfl⟩
    obtain ⟨s, hs, -, he⟩ := own?_iff_slot.mp hv
    exact mem_staleSlots.mpr ⟨s, hs, Slot.isStale_of_entry he fun heq =>
      hne ((congrArg UInt64.toNat heq).trans hm.epoch)⟩

/-- **A purge counts what has been registered in earlier epochs.** -/
theorem length_staleSlots (hm : r.Matches l) : r.staleSlots.length = l.stale.size := by
  have hnodup : (l.stale.entries.map fun x => x.1.slot.toNat).Nodup := by
    refine l.stale.nodup_entries.map_on ?_
    rintro ⟨h, d⟩ hx ⟨h', d'⟩ hx' hslot
    simp only [← OrdMap.get?_eq_some_iff, Ledger.stale, OrdMap.get?_filter,
      Option.filter_eq_some_iff, hm.held_iff] at hx hx'
    obtain ⟨⟨v, hv, rfl⟩, -⟩ := hx
    obtain ⟨⟨v', hv', rfl⟩, -⟩ := hx'
    obtain rfl := eq_of_own? hv hv' (UInt32.toNat_inj.mp hslot)
    rw [Option.some.inj (hv.symm.trans hv')]
  have hperm : r.staleSlots.Perm (l.stale.entries.map fun x => x.1.slot.toNat) := by
    refine (List.perm_ext_iff_of_nodup (nodup_staleSlots r) hnodup).mpr fun i => ?_
    rw [hm.mem_staleSlots_iff, List.mem_map]
  rw [hperm.length_eq, List.length_map, OrdMap.length_entries]

theorem purged (hm : r.Matches l)
    (hgen : ∀ i, r.occupied i = true → r.purgeStale.2.occupied i = false →
      (r.generation i).toNat + 1 < UInt32.size) :
    Matches r.purgeStale.2 { l with held := l.held.filter fun _ d => d.epoch == l.epochs } := by
  have hcurrent {h : Handle} : h.epoch.toNat = l.epochs ↔ h.epoch = r.epoch := by
    rw [← hm.epoch, UInt64.toNat_inj]
  refine ⟨hm.sound.purgeStale, hm.epoch, fun h => Option.ext fun d => ?_, fun h hh => ?_, ?_⟩
  · rw [OrdMap.get?_filter, Option.filter_eq_some_iff, hm.held_iff, Option.map_eq_some_iff,
      beq_iff_eq]
    constructor
    · rintro ⟨⟨v, hv, rfl⟩, hepoch⟩
      exact ⟨v, own?_purgeStale (hcurrent.mp hepoch) hv, rfl⟩
    · rintro ⟨v, hv, rfl⟩
      exact ⟨⟨v, own?_of_purgeStale hv, rfl⟩, hcurrent.mpr (epoch_of_own?_purgeStale hv)⟩
  · exact hm.issued_step .purged hgen hh
  · show r.live - r.staleSlots.length = _
    have hparts : l.held.entries.length = _ + _ :=
      List.length_eq_length_filter_add fun x => x.2.epoch == l.epochs
    rw [hm.length_staleSlots, hm.live, ← OrdMap.length_entries, ← OrdMap.length_entries,
      ← OrdMap.length_entries, Ledger.stale, OrdMap.entries_filter, OrdMap.entries_filter, hparts]
    exact Nat.add_sub_cancel ..

/-- **Every operation is answered as the ledger allows**, and keeps registry and ledger in step. -/
theorem step (hm : r.Matches l) (hop : r.Performs op reply r') (hfull : reply ≠ .full)
    (hissued : ∀ h, op.handle? = some h → h ∈ l.issued)
    (hgen : ∀ i, r.occupied i = true → r'.occupied i = false →
      (r.generation i).toNat + 1 < UInt32.size)
    (hepoch : op = .invalidateAll → l.epochs + 1 < UInt64.size) :
    ∃ l', l.Step op reply l' ∧ r'.Matches l' := by
  cases hop with
  | registered hreg => exact ⟨_, .registered (hm.fresh hreg).2, hm.registered hreg hgen⟩
  | full => exact absurd rfl hfull
  | found resolves =>
    obtain ⟨hown, hcur⟩ := resolve_eq_ok_iff_own?.mp resolves
    exact ⟨l, .found (hm.held_iff.mpr ⟨_, hown, rfl⟩) (hcur ▸ hm.epoch), hm⟩
  | modified f resolves =>
    obtain ⟨hown, hcur⟩ := resolve_eq_ok_iff_own?.mp resolves
    exact ⟨_, .modified f (hm.held_iff.mpr ⟨_, hown, rfl⟩) (hcur ▸ hm.epoch),
      hm.modified resolves f hgen⟩
  | @notFound op h fault looks fails =>
    have habout : op.handle? = some h := by
      rcases looks with rfl | ⟨f, rfl⟩
      · rfl
      · rfl
    rcases resolve_eq_error fails with ⟨hnone, rfl⟩ | ⟨e, he, hnot, rfl⟩
    · exact ⟨l, .unknown habout (hm.held_none_of_entry? hnone), hm⟩
    · obtain ⟨hsame, hheld⟩ := hm.held_of_entry? (hissued h habout) he
      have hold : h.epoch ≠ r.epoch := fun heq => hnot ⟨hsame.trans heq, heq⟩
      have hstep := Ledger.Step.stale looks hheld fun heq =>
        hold (UInt64.toNat_inj.mp (heq.trans hm.epoch.symm))
      rw [hm.ofNat_epoch, UInt64.ofNat_toNat] at hstep
      exact ⟨l, hstep, hm⟩
  | @destroyed h v r' destroys =>
    obtain ⟨-, -, ⟨s, e, hs, hg, he, rfl, -⟩, -⟩ := destroy_spec destroys
    have hown := hm.own?_of_entry? (hissued h rfl) (entry?_eq_some_iff.mpr ⟨s, hs, hg, he⟩)
    exact ⟨_, .destroyed (hm.held_iff.mpr ⟨_, hown, rfl⟩), hm.destroyed destroys hown hgen⟩
  | @notDestroyed h fault fails =>
    obtain ⟨hnone, rfl⟩ := destroy_eq_error fails
    exact ⟨l, .unknown rfl (hm.held_none_of_entry? hnone), hm⟩
  | purged =>
    have hcount : r.purgeStale.1 = l.stale.size := hm.length_staleSlots
    rw [hcount]
    exact ⟨_, .purged, hm.purged hgen⟩
  | invalidated =>
    have hnext : r.epoch + 1 = UInt64.ofNat (l.epochs + 1) := by
      rw [← hm.ofNat_epoch, UInt64.ofNat_add]
      rfl
    rw [hnext]
    refine ⟨_, .invalidated, hm.sound.invalidateAll, ?_, hm.held, hm.issued, hm.live⟩
    show (r.epoch + 1).toNat = l.epochs + 1
    rw [hnext]
    exact UInt64.toNat_ofNat_of_lt (hepoch rfl)

end Matches

/-! ## Runs -/

/-- A run from nothing that hands in handles that it has been given, and that exhausts neither the
numbers of slots, nor the generations of any slot, nor the epochs. -/
structure Orderly (ops : List (Op α)) : Prop where
  handles : ∀ (n : Nat) (hn : n < ops.length), ∀ h ∈ ops[n].handle?,
    h ∈ (empty : Registry α).issued (ops.take n)
  slots : ((empty : Registry α).after ops).slots.size < UInt32.size
  frees : ∀ i, (empty : Registry α).frees i ops < UInt32.size
  epochs : ops.countP Op.invalidates < UInt64.size

/-- What comes before the last operation of an orderly run is orderly. -/
theorem Orderly.init {ops : List (Op α)} (h : Orderly (ops ++ [op])) : Orderly ops where
  handles n hn x hx := by
    have hn' : n < (ops ++ [op]).length := by
      rw [List.length_append]
      omega
    have hlast := h.handles n hn' x (by rwa [List.getElem_append_left hn])
    rwa [List.take_append_of_le_length (Nat.le_of_lt hn)] at hlast
  slots := by
    have hlast := h.slots
    rw [after_append] at hlast
    exact Nat.lt_of_le_of_lt ((performs _ op).size_le (after_sound sound_empty ops)) hlast
  frees i := by
    have hlast := h.frees i
    rw [frees_append] at hlast
    omega
  epochs := by
    have hlast := h.epochs
    rw [List.countP_append] at hlast
    omega

/-- A registry that has room for another slot takes what is registered. -/
theorem Performs.ne_full (hr : r.Sound) (h : r.Performs op reply r')
    (hsize : r.slots.size < UInt32.size) : reply ≠ .full := by
  rintro rfl
  cases h with
  | full fails =>
    obtain ⟨x, r', hreg⟩ :=
      exists_register hr (fun hfull => Nat.not_lt.mpr hfull.2 hsize) _
    exact nomatch fails.symm.trans hreg

theorem trace_snoc (r : Registry α) (ops : List (Op α)) (op : Op α) :
    r.trace (ops ++ [op]) = r.trace ops ++ [(op, ((r.after ops).perform op).1)] :=
  trace_append r ops [op]

theorem issued_snoc (r : Registry α) (ops : List (Op α)) (op : Op α) :
    r.issued (ops ++ [op]) = r.issued ops ++ ((r.after ops).perform op).1.handle?.toList := by
  unfold issued
  rw [trace_snoc, List.filterMap_append, List.filterMap_cons, List.filterMap_nil]
  cases ((r.after ops).perform op).1.handle? <;> rfl

/-- An orderly run is answered as its ledger allows; the ledger matches the registry, has the handles
given out, and counts the epochs begun. -/
theorem Orderly.matches {ops : List (Op α)} (h : Orderly ops) :
    ∃ l, Ledger.Keeps ((empty : Registry α).trace ops) l ∧
      ((empty : Registry α).after ops).Matches l ∧
      (∀ x ∈ (empty : Registry α).issued ops, x ∈ l.issued) ∧
      l.epochs = ops.countP Op.invalidates := by
  induction ops using List.reverseRecOn with
  | nil => exact ⟨{}, .nil, matches_empty, fun _ hx => (nomatch hx), rfl⟩
  | append_singleton ops op ih =>
    obtain ⟨l, hkeeps, hmatches, hissued, hepochs⟩ := ih h.init
    have hop := performs ((empty : Registry α).after ops) op
    have hsize : ((empty : Registry α).after ops).slots.size < UInt32.size := h.init.slots
    have hhandle (x : Handle) (hx : op.handle? = some x) : x ∈ l.issued := by
      have hn : ops.length < (ops ++ [op]).length := by
        rw [List.length_append]
        exact Nat.lt_succ_self _
      have hgiven := h.handles ops.length hn x
        (by rw [List.getElem_concat_length rfl]; exact hx)
      rw [List.take_left' rfl] at hgiven
      exact hissued x hgiven
    have hgen (i : Nat) (hi : ((empty : Registry α).after ops).occupied i = true)
        (hi' : (((empty : Registry α).after ops).perform op).2.occupied i = false) :
        (((empty : Registry α).after ops).generation i).toNat + 1 < UInt32.size := by
      have hcount : (((empty : Registry α).after ops).generation i).toNat =
          (empty : Registry α).frees i ops % UInt32.size := by
        rw [generation_after sound_empty, generation_empty, UInt32.zero_add]
        exact UInt32.toNat_ofNat'
      have hfrees := h.frees i
      rw [frees_append, Registry.frees, Registry.frees, vacates, hi, hi'] at hfrees
      rw [hcount]
      exact Nat.lt_of_le_of_lt (Nat.succ_le_succ (Nat.mod_le _ _)) hfrees
    have hepoch (heq : op = .invalidateAll) : l.epochs + 1 < UInt64.size := by
      have hmany := h.epochs
      rw [List.countP_append, heq, ← hepochs] at hmany
      exact hmany
    obtain ⟨l', hstep, hmatches'⟩ := hmatches.step hop (hop.ne_full hmatches.sound hsize) hhandle hgen
      hepoch
    refine ⟨l', ?_, ?_, ?_, ?_⟩
    · rw [trace_snoc]
      exact .snoc hkeeps hstep
    · rw [after_append]
      exact hmatches'
    · intro x hx
      rw [issued_snoc] at hx
      rw [hstep.issued, List.mem_append]
      exact (List.mem_append.mp hx).elim (fun hold => Or.inr (hissued x hold)) Or.inl
    · rw [hstep.epochs, hepochs, List.countP_append]
      cases op <;> rfl

/-- **A registry answers as its ledger does.** Every operation of an orderly run is answered as the
ledger of its time allows, and the registry tells how many values its ledger has. -/
theorem refines_ledger {ops : List (Op α)} (h : Orderly ops) :
    ∃ l, Ledger.Keeps ((empty : Registry α).trace ops) l ∧
      ((empty : Registry α).after ops).live = l.held.size := by
  obtain ⟨l, hkeeps, hmatches, -⟩ := h.matches
  exact ⟨l, hkeeps, hmatches.live⟩

/-- Two values, of which one is destroyed, its slot used again, and the rest purged in the next epoch. -/
def sampleOps : List (Op Nat) :=
  [.register 1, .register 2, .destroy ⟨0, 0, 0⟩, .register 3, .resolve ⟨0, 0, 0⟩, .invalidateAll,
    .resolve ⟨1, 0, 0⟩, .destroy ⟨0, 1, 0⟩, .purgeStale, .resolve ⟨1, 0, 0⟩]

/-- The ledger of a run in which a slot is used twice. -/
theorem sample_refines :
    Orderly sampleOps ∧ ∃ l, Ledger.Keeps ((empty : Registry Nat).trace sampleOps) l ∧
      ((empty : Registry Nat).after sampleOps).live = l.held.size := by
  have horderly : Orderly sampleOps :=
    { handles := by decide +kernel
      slots := by decide +kernel
      frees := fun i => Nat.lt_of_le_of_lt (frees_le_length _ i _) (by decide +kernel)
      epochs := by decide +kernel }
  exact ⟨horderly, refines_ledger horderly⟩

end Registry

end PolicyReach
