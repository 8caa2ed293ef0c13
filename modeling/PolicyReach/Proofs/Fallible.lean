import Mathlib.Data.List.Forall2

/-!
# Operations that may fail

What an operation has done when it succeeds, step by step, and when a loop succeeds as a whole.
-/

namespace PolicyReach

theorem bind_eq_ok_iff {ε α β : Type} {x : Except ε α} {f : α → Except ε β} {b : β} :
    x >>= f = .ok b ↔ ∃ a, x = .ok a ∧ f a = .ok b := by
  cases x with
  | error e => exact ⟨(nomatch ·), fun ⟨_, h, _⟩ => nomatch h⟩
  | ok a => exact ⟨fun h => ⟨a, rfl, h⟩, fun ⟨_, h, hb⟩ => Except.ok.inj h ▸ hb⟩

theorem map_eq_ok_iff {ε α β : Type} {x : Except ε α} {f : α → β} {b : β} :
    x.map f = .ok b ↔ ∃ a, x = .ok a ∧ f a = b := by
  cases x with
  | error e => exact ⟨(nomatch ·), fun ⟨_, h, _⟩ => nomatch h⟩
  | ok a =>
    exact ⟨fun h => ⟨a, rfl, Except.ok.inj h⟩,
      fun ⟨_, h, hb⟩ => congrArg Except.ok (Except.ok.inj h ▸ hb)⟩

theorem map_eq_error {ε α β : Type} {x : Except ε α} {f : α → β} {e : ε}
    (h : x.map f = .error e) : x = .error e := by
  cases x with
  | error e' => exact congrArg Except.error (Except.error.inj h)
  | ok a => exact nomatch h

theorem exists_ok {ε α : Type} {x : Except ε α} (h : x.isOk = true) : ∃ a, x = .ok a := by
  cases x with
  | error e => exact nomatch h
  | ok a => exact ⟨a, rfl⟩

/-- Where a check of what comes out passes, something does. -/
theorem exists_ok_of_any {ε α : Type} {x : Except ε α} {P : α → Bool}
    (h : x.toOption.any P = true) : ∃ a, x = .ok a ∧ P a = true := by
  cases x with
  | error e => exact nomatch h
  | ok a => exact ⟨a, rfl, h⟩

/-- What every step of a loop keeps holds after the loop. -/
theorem foldlM_keeps {ε α β : Type} {P : β → Prop} {f : β → α → Except ε β}
    (hf : ∀ b a b', P b → f b a = .ok b' → P b') :
    ∀ {l : List α} {b b' : β}, P b → l.foldlM f b = .ok b' → P b'
  | [], _, _, hb, h => Except.ok.inj h ▸ hb
  | a :: l, b, b', hb, h => by
    rw [List.foldlM_cons] at h
    obtain ⟨c, hc, h⟩ := bind_eq_ok_iff.mp h
    exact foldlM_keeps hf (hf b a c hb hc) h

/-- A loop whose every step succeeds succeeds with what the steps give. -/
theorem mapM_eq_ok {ε α β : Type} {f : α → Except ε β} {f' : α → β} :
    ∀ {l : List α}, (∀ a ∈ l, f a = .ok (f' a)) → l.mapM f = .ok (l.map f')
  | [], _ => rfl
  | a :: l, h => by
    rw [List.mapM_cons, h a List.mem_cons_self, mapM_eq_ok fun x hx => h x (List.mem_cons_of_mem a hx)]
    rfl

/-- A loop whose every step succeeds succeeds with what the steps give, where they give something. -/
theorem filterMapM_eq_ok {ε α β : Type} {f : α → Except ε (Option β)} {f' : α → Option β} :
    ∀ {l : List α}, (∀ a ∈ l, f a = .ok (f' a)) → l.filterMapM f = .ok (l.filterMap f')
  | [], _ => rfl
  | a :: l, h => by
    rw [List.filterMapM_cons, h a List.mem_cons_self,
      filterMapM_eq_ok fun x hx => h x (List.mem_cons_of_mem a hx), List.filterMap_cons]
    cases f' a <;> rfl

/-- A loop whose every step gives something gives all of it. -/
theorem exists_mapM {α β : Type} {f : α → Option β} :
    ∀ {l : List α}, (∀ a ∈ l, ∃ b, f a = some b) →
      ∃ bs, l.mapM f = some bs ∧ List.Forall₂ (fun a b => f a = some b) l bs
  | [], _ => ⟨[], rfl, .nil⟩
  | a :: l, h => by
    obtain ⟨b, hb⟩ := h a List.mem_cons_self
    obtain ⟨bs, hbs, hall⟩ := exists_mapM fun x hx => h x (List.mem_cons_of_mem a hx)
    refine ⟨b :: bs, ?_, .cons hb hall⟩
    rw [List.mapM_cons, hb, hbs]
    rfl

/-- What a loop gives is what its steps give. -/
theorem exists_of_mem_mapM {α β : Type} {f : α → Option β} {b : β} :
    ∀ {l : List α} {bs : List β}, l.mapM f = some bs → b ∈ bs → ∃ a ∈ l, f a = some b
  | [], _, h, hb => by
    obtain rfl := Option.some.inj h
    exact nomatch hb
  | a :: l, bs, h, hb => by
    rw [List.mapM_cons] at h
    obtain ⟨x, hx, h⟩ := Option.bind_eq_some_iff.mp h
    obtain ⟨xs, hxs, h⟩ := Option.bind_eq_some_iff.mp h
    obtain rfl := Option.some.inj h
    rcases List.mem_cons.mp hb with rfl | hb
    · exact ⟨a, List.mem_cons_self, hx⟩
    · obtain ⟨y, hy, hyb⟩ := exists_of_mem_mapM hxs hb
      exact ⟨y, List.mem_cons_of_mem a hy, hyb⟩

/-- Loops whose steps give the same give the same. -/
theorem mapM_congr {α β : Type} {f f' : α → Option β} :
    ∀ {l : List α}, (∀ a ∈ l, f a = f' a) → l.mapM f = l.mapM f'
  | [], _ => rfl
  | a :: l, h => by
    rw [List.mapM_cons, List.mapM_cons, h a List.mem_cons_self,
      mapM_congr fun x hx => h x (List.mem_cons_of_mem a hx)]

end PolicyReach
