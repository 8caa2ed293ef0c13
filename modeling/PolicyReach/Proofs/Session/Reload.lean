import PolicyReach.Proofs.PermissionMap.Content
import PolicyReach.Proofs.Session.Epoch
import PolicyReach.Proofs.Session.Founded

/-!
# Reloading a permission map

A session takes a permission map for the one that is loaded when their fingerprints are equal, and then keeps
every handle. This is right as long as the hash tells the texts of the two maps apart.

* `fingerprint_after`: at any moment of a run, the fingerprint kept is that of the map that is loaded;
* **`loadPermissions_exact`**: a map changes nothing where it says what the loaded one says, and otherwise
  takes its place and begins a new epoch.
-/

namespace PolicyReach

open XxHash64 (ToldApart)

namespace Session

variable {s s' s₀ : Session} {c : Call} {cs : List Call}

theorem Effect.fingerprint (hs : s.fingerprint = s.permissions.map PermissionMap.fingerprint)
    (he : Effect s c s') : s'.fingerprint = s'.permissions.map PermissionMap.fingerprint := by
  cases he with
  | mapChanged m loads => rfl
  | _ => exact hs

/-- **The fingerprint kept is that of the map that is loaded.** -/
theorem fingerprint_after (hs : s.fingerprint = s.permissions.map PermissionMap.fingerprint)
    (cs : List Call) :
    (s.after cs).fingerprint = (s.after cs).permissions.map PermissionMap.fingerprint := by
  induction cs generalizing s with
  | nil => exact hs
  | cons c cs ih =>
    rw [after_cons]
    exact ih ((call_effect s c).fingerprint hs)

/-- Some map is loaded that says the same of every permission. -/
def Holds (s : Session) (m : PermissionMap) : Prop := ∃ l, s.permissions = some l ∧ l.Agree m

/-- The fingerprint kept is that of the map if it agrees with the one loaded, and only then. -/
theorem fingerprint_eq_iff (hs : s.fingerprint = s.permissions.map PermissionMap.fingerprint)
    (hbuilt : ∀ l, s.permissions = some l → l.Built) {m : PermissionMap} (hm : m.Built)
    (hash : ∀ l, s.permissions = some l → ToldApart l.content.text m.content.text) :
    some m.fingerprint = s.fingerprint ↔ s.Holds m := by
  rw [hs, eq_comm, Option.map_eq_some_iff]
  refine exists_congr fun l => and_congr_right fun hl => ?_
  exact (hbuilt l hl).fingerprint_inj hm (hash l hl)

/-- **A reload is recognised by its content.** Permission maps that are put together by insertions, as those
are that are read from texts, have the same fingerprinted text exactly where they say the same of every
permission. In every state that a run of calls reaches, as long as the hash tells the text of a map from that
of the loaded one: to load the map changes nothing, and says so, where it agrees with the loaded one;
otherwise it takes the place of that one, and an epoch begins. -/
theorem loadPermissions_exact (h₀ : s₀.Initial) (hmaps : ∀ m, .loadPermissions m ∈ cs → m.Built)
    {m : PermissionMap} (hm : m.Built)
    (hash : ∀ l, (s₀.after cs).permissions = some l → ToldApart l.content.text m.content.text) :
    let s := s₀.after cs
    (∀ text a, PermissionMap.ofText text = .ok a → a.Built) ∧
      (∀ a b : PermissionMap, a.Built → b.Built → (a.content.text = b.content.text ↔ a.Agree b)) ∧
      (s.Holds m → s.loadPermissions m = (false, s)) ∧
      (¬ s.Holds m → ∃ s', s.loadPermissions m = (true, s') ∧ s'.permissions = some m ∧
        s'.epoch = s.epoch + 1 ∧ s'.policy = s.policy ∧ s'.config = s.config) := by
  intro s
  have hkept := fingerprint_after h₀.current.fingerprint cs
  have hbuilt := (after_founded h₀.founded hmaps).permissions
  have hequal : some m.fingerprint = s.fingerprint ↔ s.Holds m := fingerprint_eq_iff hkept hbuilt hm hash
  refine ⟨fun text a => .ofLines, fun a b ha hb => ha.text_inj hb, fun hholds => ?_, fun hnot => ?_⟩
  · exact if_pos (hequal.mpr hholds)
  · exact ⟨_, if_neg fun h => hnot (hequal.mp h), rfl, rfl, rfl, rfl⟩

/-- The mappings of `PermissionMap.sample`, put in the other way round and one of them twice. -/
def sampleAgain : PermissionMap :=
  ((PermissionMap.empty.insert "file" "append" .read 1).insert "file" "write" .write 2).insert "file" "append"
    .write 9

/-- The mappings of `PermissionMap.sample`, one of them lighter. -/
def sampleLighter : PermissionMap := PermissionMap.sample.insert "file" "append" .write 8

/-- Over `PermissionMap.sample`, the same mappings change nothing and a lighter one does. -/
theorem sample_reload :
    let s := sample.after [.loadPermissions .sample]
    s.loadPermissions sampleAgain = (false, s) ∧
      ∃ s', s.loadPermissions sampleLighter = (true, s') ∧ s'.permissions = some sampleLighter ∧
        s'.epoch = s.epoch + 1 := by
  have hinit : sample.Initial := ⟨{}, Or.inr ⟨.sample, rfl⟩⟩
  have hmaps : ∀ m, .loadPermissions m ∈ [Call.loadPermissions .sample] → m.Built := by
    intro m hm
    rw [Call.loadPermissions.inj (List.mem_singleton.mp hm)]
    exact PermissionMap.built_sample
  have hloaded : (sample.after [.loadPermissions .sample]).permissions = some .sample := by decide +kernel
  have hagain : sampleAgain.Built := ((PermissionMap.Built.empty.insert ..).insert ..).insert ..
  have hlighter : sampleLighter.Built := PermissionMap.built_sample.insert ..
  have hequal : PermissionMap.sample.content.text = sampleAgain.content.text := by decide +kernel
  have hapart : ToldApart PermissionMap.sample.content.text sampleLighter.content.text := fun h =>
    absurd h (by decide +kernel)
  obtain ⟨-, htexts, hsame, -⟩ := loadPermissions_exact hinit hmaps hagain
    fun l hl _ => Option.some.inj (hloaded.symm.trans hl) ▸ hequal
  obtain ⟨-, -, -, hother⟩ := loadPermissions_exact hinit hmaps hlighter
    fun l hl => Option.some.inj (hloaded.symm.trans hl) ▸ hapart
  have hnot : ¬ (sample.after [.loadPermissions .sample]).Holds sampleLighter := by
    rintro ⟨l, hl, hagree⟩
    obtain rfl := Option.some.inj (hloaded.symm.trans hl)
    exact absurd (hagree "file" "append") (by decide +kernel)
  obtain ⟨s', hload, hmap, hepoch, -⟩ := hother hnot
  exact ⟨hsame ⟨.sample, hloaded, (htexts _ _ PermissionMap.built_sample hagain).mp hequal⟩, s', hload, hmap,
    hepoch⟩

end Session

end PolicyReach
