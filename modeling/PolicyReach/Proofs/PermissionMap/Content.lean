import PolicyReach.Proofs.Json.RoundTrip
import PolicyReach.Proofs.PermissionMap.Weights

/-!
# The content of a permission map

What a permission map is fingerprinted by is the text of its mappings by class, in ascending order.

* **`Built.eq_iff`**: maps that are put together are told by their lookups, as no class of them is left
  without a permission (`Built.inhabited`);
* `content_inj`: a map is told by its content, and this by its text, being plain (`plain_content`);
* **`Built.text_inj`**: so two maps have the same text exactly where they say the same of every permission;
* **`Built.fingerprint_inj`**: and the same fingerprint, if the hash tells their texts apart
  (`ToldApart`).
-/

namespace PolicyReach

/-- The hash tells the two texts apart, if they are two. -/
def XxHash64.ToldApart (s t : String) : Prop :=
  hash s.toUTF8.data.toList = hash t.toUTF8.data.toList → s = t

/-! ## Mappings as values -/

theorem Current.name_inj {x y : Current} : x.name = y.name ↔ x = y := by
  cases x <;> cases y <;> decide

namespace Mapping

theorem plain_toJson (x : Mapping) : x.toJson.Plain := by
  refine .obj fun f hf => ?_
  rcases List.mem_cons.mp hf with rfl | hf
  · exact .str _
  · obtain rfl := List.mem_singleton.mp hf
    have hlt : x.weight.toNat < 2 ^ 32 := x.weight.toNat_lt
    have hfits : -2 ^ 63 ≤ (x.weight.toNat : Int) ∧ (x.weight.toNat : Int) < 2 ^ 64 := by omega
    exact .int hfits.1 hfits.2

/-- **A mapping is told by its value.** -/
theorem toJson_inj {x y : Mapping} : x.toJson = y.toJson ↔ x = y := by
  refine ⟨fun h => ?_, fun h => h ▸ rfl⟩
  obtain ⟨current, weight⟩ := x
  obtain ⟨current', weight'⟩ := y
  simp only [toJson, Current.toJson, Json.nat, Json.obj.injEq, List.cons.injEq, Prod.mk.injEq, true_and,
    Json.str.injEq, Json.int.injEq, Int.natCast_inj, UInt32.toNat_inj, and_true] at h
  obtain ⟨hname, rfl⟩ := h
  rw [Current.name_inj.mp hname]

end Mapping

namespace PermissionMap

/-- The two maps say the same of every permission of every class. -/
def Agree (a b : PermissionMap) : Prop := ∀ c p, a.get? c p = b.get? c p

variable {a b m : PermissionMap}

/-! ## Maps by their lookups -/

/-- **No class is left without a permission.** -/
theorem Built.inhabited (hm : m.Built) {c : String} {perms : OrdMap String Mapping}
    (hc : m.classes.get? c = some perms) : ∃ p x, perms.get? p = some x := by
  induction hm generalizing perms with
  | empty => exact nomatch (OrdMap.get?_empty c).symm.trans hc
  | @insert m _ cls perm current weight ih =>
    rw [show (m.insert cls perm current weight).classes.get? c = _ from OrdMap.get?_insert _ cls _ c] at hc
    split at hc
    · obtain rfl := Option.some.inj hc
      exact ⟨perm, _, by rw [OrdMap.get?_insert, if_pos rfl]⟩
    · exact ih hc

/-- A class that one of two maps has, the other has with the same permissions, if they agree. -/
theorem Agree.classes_of_some (h : a.Agree b) (ha : a.Built) {c : String} {perms : OrdMap String Mapping}
    (hc : a.classes.get? c = some perms) : b.classes.get? c = some perms := by
  have hlookup : ∀ p, perms.get? p = (b.classes.get? c).bind fun perms => perms.get? p := fun p => by
    have hp := h c p
    rw [get?, hc] at hp
    exact hp
  cases hb : b.classes.get? c with
  | none =>
    obtain ⟨p, x, hx⟩ := ha.inhabited hc
    rw [hlookup, hb] at hx
    exact nomatch hx
  | some perms' =>
    rw [hb] at hlookup
    exact congrArg some (OrdMap.ext hlookup).symm

/-- **Maps that are put together are told by their lookups.** -/
theorem Built.eq_iff (ha : a.Built) (hb : b.Built) : a.Agree b ↔ a = b := by
  refine ⟨fun h => ?_, fun h _ _ => h ▸ rfl⟩
  have hclasses : a.classes = b.classes := by
    refine OrdMap.ext fun c => Option.ext fun perms => ⟨h.classes_of_some ha, ?_⟩
    exact Agree.classes_of_some (fun c p => (h c p).symm) hb
  cases a
  cases b
  exact congrArg mk hclasses

/-! ## Maps by their texts -/

theorem plain_content (m : PermissionMap) : m.content.Plain := by
  refine .obj fun f hf => ?_
  obtain ⟨c, -, rfl⟩ := List.mem_map.mp hf
  refine .obj fun g hg => ?_
  obtain ⟨p, -, rfl⟩ := List.mem_map.mp hg
  exact p.2.plain_toJson

/-- Entries are told by the fields that are made of them, if the values are. -/
theorem entries_fields_inj {β : Type} {f : β → Json} (hf : ∀ x y, f x = f y → x = y)
    {m n : OrdMap String β}
    (h : (m.entries.map fun e => (e.1, f e.2)) = n.entries.map fun e => (e.1, f e.2)) : m = n := by
  have hfield : Function.Injective fun e : String × β => (e.1, f e.2) := fun x y hxy =>
    Prod.ext (Prod.mk.inj hxy).1 (hf _ _ (Prod.mk.inj hxy).2)
  exact OrdMap.entries_inj.mp (List.map_injective_iff.mpr hfield h)

/-- **A map is told by its content.** -/
theorem content_inj : a.content = b.content ↔ a = b := by
  refine ⟨fun h => ?_, fun h => h ▸ rfl⟩
  have hclasses : a.classes = b.classes :=
    entries_fields_inj
      (fun _ _ h => entries_fields_inj (fun _ _ => Mapping.toJson_inj.mp) (Json.obj.inj h)) (Json.obj.inj h)
  cases a
  cases b
  exact congrArg mk hclasses

/-- **Two maps have the same text exactly where they say the same of every permission.** -/
theorem Built.text_inj (ha : a.Built) (hb : b.Built) : a.content.text = b.content.text ↔ a.Agree b := by
  rw [Json.text_inj a.plain_content b.plain_content, content_inj, ha.eq_iff hb]

/-- **A map is recognised by its fingerprint**, if the hash tells its text from that of the other. -/
theorem Built.fingerprint_inj (ha : a.Built) (hb : b.Built)
    (hash : XxHash64.ToldApart a.content.text b.content.text) :
    a.fingerprint = b.fingerprint ↔ a.Agree b := by
  rw [← ha.text_inj hb]
  refine Json.fingerprint_inj.trans ⟨hash, fun h => ?_⟩
  rw [Json.hash, h, ← Json.hash]

end PermissionMap

end PolicyReach
