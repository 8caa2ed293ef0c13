import PolicyReach.Grants
import PolicyReach.Proofs.Flow.Relation

/-!
# Grants are exact

Who is granted a permission is looked up from either side of the rules, and kept in a memo between
lookups.

* `Enumerates`: a list of references gives those with a property;
* `Policy.Allows`: a rule in effect grants a permission from one type to another;
* **`Policy.grants_exact`**: the grants of a key are the rules that allow it, type by type;
* `GrantMemo.Honest`: a memo holds nothing but grants of the policy; **`Honest.lookup`**: what is looked
  up in such a memo is what the policy grants.
-/

namespace PolicyReach

/-- A list gives the references with a property, ascending. -/
structure Enumerates (l : List RuleId) (P : RuleId → Prop) : Prop where
  ascending : l.Pairwise fun a b => compare a b = .lt
  mem_iff : ∀ id, id ∈ l ↔ P id

theorem OrdSet.enumerates {s : OrdSet RuleId} {P : RuleId → Prop} (h : ∀ id, id ∈ s ↔ P id) :
    Enumerates s.toList P :=
  ⟨s.ascending_toList, fun id => OrdSet.mem_toList.trans (h id)⟩

namespace Policy

/-- An allow rule in effect, of this reference, grants `s` a permission on `t`. -/
def Allows (p : Policy) (cls perm : String) (s t : TypeName) (id : RuleId) : Prop :=
  ∃ r, p.InForce r ∧ r.cls = cls ∧ perm ∈ r.perms ∧ p.Covers r s t ∧ r.id = id

/-- The rule grants what a key asks for, with `u` on the other side. -/
def AllowsKey (p : Policy) (k : GrantKey) (u : TypeName) (id : RuleId) : Prop :=
  match k.side with
  | .subject => p.Allows k.cls k.perm k.type u id
  | .object => p.Allows k.cls k.perm u k.type id

variable {p : Policy}

theorem sourceCovers_iff {source : String} {s : TypeName} :
    p.sourceCovers source s = true ↔ s ∈ p.expand source :=
  OrdSet.contains_eq_true_iff

theorem targetCovers_iff {target : String} {s t : TypeName} :
    p.targetCovers target s t = true ↔
      if target = selfTarget then t = s else t ∈ p.expand target := by
  unfold targetCovers
  split
  · rw [beq_iff_eq, eq_comm]
  · exact OrdSet.contains_eq_true_iff

/-- A rule covers a pair of types if its source covers the one and its target the other. -/
theorem covers_iff {r : AccessRule} {s t : TypeName} :
    p.Covers r s t ↔ p.sourceCovers r.source s = true ∧ p.targetCovers r.target s t = true := by
  rw [sourceCovers_iff, targetCovers_iff, Covers]

theorem mem_otherSide {r : AccessRule} {side : Side} {t u : TypeName} :
    u ∈ p.otherSide r side t ↔
      match side with
      | .subject => p.Covers r t u
      | .object => p.Covers r u t := by
  unfold otherSide
  cases side with
  | subject =>
    simp only [covers_iff, targetCovers_iff]
    by_cases hsource : p.sourceCovers r.source t = true
    · rw [if_pos hsource]
      split
      · simp [hsource]
      · simp [hsource]
    · simp [hsource]
  | object => simp only [List.mem_filter, OrdSet.mem_toList, covers_iff, sourceCovers_iff]

end Policy

namespace Grants

/-- The rules for a type. -/
def rules (g : Grants) (t : TypeName) : OrdSet RuleId := (g.get? t).getD ∅

variable {g : Grants} {t u : TypeName} {id rule : RuleId}

theorem mem_rules : id ∈ g.rules t ↔ ∃ s, g.get? t = some s ∧ id ∈ s := by
  unfold rules
  cases g.get? t with
  | none => exact ⟨fun h => absurd h (OrdSet.not_mem_empty id), fun ⟨_, h, _⟩ => nomatch h⟩
  | some s => exact ⟨fun h => ⟨s, rfl, h⟩, fun ⟨_, hs, h⟩ => Option.some.inj hs ▸ h⟩

theorem mem_rules_add : id ∈ (g.add t rule).rules u ↔ id ∈ g.rules u ∨ u = t ∧ id = rule := by
  unfold add rules
  rw [OrdMap.get?_insertWith]
  by_cases hu : u = t
  · subst hu
    rw [if_pos rfl, Option.getD_some]
    cases g.get? u with
    | none =>
      show id ∈ OrdSet.singleton rule ↔ id ∈ (OrdSet.empty : OrdSet RuleId) ∨ u = u ∧ id = rule
      rw [OrdSet.mem_singleton, or_iff_right (OrdSet.not_mem_empty id)]
      exact (and_iff_right rfl).symm
    | some s =>
      show id ∈ s.union (OrdSet.singleton rule) ↔ id ∈ s ∨ u = u ∧ id = rule
      rw [OrdSet.mem_union, OrdSet.mem_singleton, and_iff_right rfl]
  · simp [hu]

theorem mem_rules_addAll {types : List TypeName} :
    id ∈ (g.addAll types rule).rules u ↔ id ∈ g.rules u ∨ u ∈ types ∧ id = rule := by
  unfold addAll
  induction types generalizing g with
  | nil => simp
  | cons t types ih => rw [List.foldl_cons, ih, mem_rules_add, List.mem_cons]; tauto

/-- No type is listed without rules. -/
def Tight (g : Grants) : Prop := ∀ t s, g.get? t = some s → ∃ id, id ∈ s

theorem Tight.add (h : g.Tight) (t : TypeName) (rule : RuleId) : (Grants.add g t rule).Tight := by
  intro u s hs
  unfold Grants.add at hs
  rw [OrdMap.get?_insertWith] at hs
  split at hs
  · obtain rfl := Option.some.inj hs
    cases g.get? t with
    | none => exact ⟨rule, OrdSet.mem_singleton.mpr rfl⟩
    | some old => exact ⟨rule, OrdSet.mem_union.mpr (Or.inr (OrdSet.mem_singleton.mpr rfl))⟩
  · exact h u s hs

theorem Tight.addAll (h : g.Tight) (types : List TypeName) (rule : RuleId) :
    (Grants.addAll g types rule).Tight := by
  unfold Grants.addAll
  induction types generalizing g with
  | nil => exact h
  | cons t types ih => exact ih (h.add t rule)

end Grants

namespace Policy

variable {p : Policy} {k : GrantKey}

theorem mem_rules_fold {l : List AccessRule} {g : Grants} {u : TypeName} {id : RuleId} :
    id ∈ (l.foldl (fun g r => Grants.addAll g (p.otherSide r k.side k.type) r.id) g).rules u ↔
      id ∈ g.rules u ∨ ∃ r ∈ l, u ∈ p.otherSide r k.side k.type ∧ r.id = id := by
  induction l generalizing g with
  | nil => simp
  | cons r l ih =>
    rw [List.foldl_cons, ih, Grants.mem_rules_addAll]
    simp only [List.mem_cons, exists_eq_or_imp]
    rw [or_assoc, eq_comm (a := id)]

theorem tight_grants (p : Policy) (k : GrantKey) : (p.grants k).Tight := by
  have hfold : ∀ (l : List AccessRule) (g : Grants), g.Tight →
      (l.foldl (fun g r => Grants.addAll g (p.otherSide r k.side k.type) r.id) g).Tight := by
    intro l
    induction l with
    | nil => exact fun g h => h
    | cons r l ih => exact fun g h => ih _ (h.addAll _ _)
  exact hfold _ _ fun t s hs => nomatch (OrdMap.get?_empty t).symm.trans hs

theorem mem_rules_grants {u : TypeName} {id : RuleId} :
    id ∈ (p.grants k).rules u ↔ p.AllowsKey k u id := by
  have hempty : id ∉ Grants.rules ∅ u := by
    unfold Grants.rules
    rw [show (∅ : Grants).get? u = none from OrdMap.get?_empty u]
    exact OrdSet.not_mem_empty id
  unfold grants
  rw [mem_rules_fold, or_iff_right hempty]
  simp only [List.mem_filter, mem_activeAllowRules, mem_otherSide, Bool.and_eq_true, beq_iff_eq,
    AccessRule.grants, OrdSet.contains_eq_true_iff]
  unfold AllowsKey Allows
  cases k.side with
  | subject => simp only [and_assoc]
  | object => simp only [and_assoc]

/-- **Grants are exact.** A type is listed iff some rule allows what is looked up, and the rules listed
for it are those that do. -/
theorem grants_exact (p : Policy) (k : GrantKey) (u : TypeName) :
    ((∃ s, (p.grants k).get? u = some s) ↔ ∃ id, p.AllowsKey k u id) ∧
      ∀ s, (p.grants k).get? u = some s → ∀ id, id ∈ s ↔ p.AllowsKey k u id := by
  have hrules (s : OrdSet RuleId) (hs : (p.grants k).get? u = some s) (id : RuleId) :
      id ∈ s ↔ p.AllowsKey k u id := by
    rw [← mem_rules_grants, Grants.mem_rules]
    exact ⟨fun hid => ⟨s, hs, hid⟩, fun ⟨s', hs', hid⟩ => Option.some.inj (hs.symm.trans hs') ▸ hid⟩
  refine ⟨⟨fun ⟨s, hs⟩ => ?_, fun ⟨id, hid⟩ => ?_⟩, hrules⟩
  · obtain ⟨id, hid⟩ := tight_grants p k u s hs
    exact ⟨id, (hrules s hs id).mp hid⟩
  · obtain ⟨s, hs, -⟩ := Grants.mem_rules.mp (mem_rules_grants.mpr hid)
    exact ⟨s, hs⟩

end Policy

/-! ## The memo -/

namespace GrantMemo

/-- All that the memo keeps are grants of the policy. -/
def Honest (m : GrantMemo) (p : Policy) : Prop :=
  ∀ c, m.cache = some c → ∀ k g, (k, g) ∈ c.entries → g = p.grants k

variable {m : GrantMemo} {p : Policy}

theorem honest_cleared (m : GrantMemo) (p : Policy) : m.cleared.Honest p := by
  intro c hc k g hg
  obtain ⟨c', -, rfl⟩ := Option.map_eq_some_iff.mp hc
  exact nomatch hg

/-- **What is looked up is what the policy grants**, and so is all that the memo keeps then. -/
theorem Honest.lookup (h : m.Honest p) (k : GrantKey) :
    (m.lookup p k).1 = p.grants k ∧ (m.lookup p k).2.Honest p := by
  unfold GrantMemo.lookup
  cases hfind : m.cache.bind fun c => c.find? k with
  | some x =>
    obtain ⟨g, c⟩ := x
    obtain ⟨c₀, hc₀, hfound⟩ := Option.bind_eq_some_iff.mp hfind
    obtain ⟨g', hg', hx⟩ := Option.map_eq_some_iff.mp hfound
    cases hx
    have hg : g = p.grants k := by
      obtain ⟨front, back, hentries, -⟩ := List.lookup_eq_some_iff.mp hg'
      refine h c₀ hc₀ k g ?_
      rw [hentries]
      exact List.mem_append_right front List.mem_cons_self
    refine ⟨hg, fun c hc k' g hk => ?_⟩
    obtain rfl := Option.some.inj hc
    rcases List.mem_cons.mp hk with heq | hold
    · cases heq
      exact hg
    · exact h c₀ hc₀ k' g (List.mem_filter.mp hold).1
  | none =>
    refine ⟨rfl, fun c hc k' g hk => ?_⟩
    obtain ⟨c₀, hc₀, rfl⟩ := Option.map_eq_some_iff.mp hc
    rcases List.mem_cons.mp (List.mem_of_mem_take hk) with heq | hold
    · cases heq
      rfl
    · exact h c₀ hc₀ k' g (List.mem_filter.mp hold).1

end GrantMemo

end PolicyReach
