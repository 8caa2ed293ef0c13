import Mathlib.Data.List.Nodup
import PolicyReach.Proofs.Policy.References

/-!
# Every reference finds its rule

Both tables of rules take their references from one counter, so each holds some of the references in
ascending order, and where a rule stands tells nothing of its reference. Rules are found by halving.

Model: `BuilderCall` is a call of a policy's builder, and `run` makes it; a `Building` is a policy with all
references that calls have answered with, each with the rule that the call asked for.

Results:
* `bisect?_eq_some_iff`: halving finds exactly the elements of a table whose keys ascend;
* `run_cases`: what one call does to the tables and the counter;
* `Building.Recorded`, `recorded_after`: over calls that add fewer rules than there are references, the
  tables are the rules added, in order, under references that ascend;
* `Recorded.accessRule?_eq_some_iff`, `labelRule?_eq_some_iff`, `render?_eq_some_iff`: the lookups;
* **`references_find_rules`**: references are distinct, and each finds the rule added under it and no other.
-/

namespace PolicyReach

/-! ## Looking up by halving -/

section Bisection

variable {α κ : Type} [Ord κ] {key : α → κ} {k : κ} {a : Array α} {lo hi : Nat} {x : α}

/-- The keys of an array ascend. -/
def Ascending (key : α → κ) (a : Array α) : Prop :=
  a.toList.Pairwise fun x y => compare (key x) (key y) = .lt

variable [Std.TransOrd κ] [Std.LawfulEqOrd κ]

/-- Keys compare as the positions where they stand. -/
theorem Ascending.compare_eq (h : Ascending key a) {i j : Nat} {x y : α} (hx : a[i]? = some x)
    (hy : a[j]? = some y) : compare (key x) (key y) = compare i j := by
  obtain ⟨hi, rfl⟩ := Array.getElem?_eq_some_iff.mp hx
  obtain ⟨hj, rfl⟩ := Array.getElem?_eq_some_iff.mp hy
  rcases Nat.lt_trichotomy i j with hlt | rfl | hlt
  · rw [Nat.compare_eq_lt.mpr hlt]
    exact List.pairwise_iff_getElem.mp h i j hi hj hlt
  · rw [Nat.compare_eq_eq.mpr rfl]
    exact Std.ReflCmp.compare_self
  · rw [Nat.compare_eq_gt.mpr hlt, Std.OrientedCmp.gt_iff_lt]
    exact List.pairwise_iff_getElem.mp h j i hj hi hlt

/-- By induction on the interval: the element looked for is at the middle, or in the half on the side of
its key. -/
theorem bisectBetween?_eq_some_iff (h : Ascending key a) (hhi : hi ≤ a.size) :
    bisectBetween? key k a lo hi = some x ↔ ∃ i, lo ≤ i ∧ i < hi ∧ a[i]? = some x ∧ key x = k := by
  fun_induction bisectBetween? key k a lo hi with
  | case1 lo hi hlt mid hnone =>
    have hmid : mid < a.size := by omega
    rw [Array.getElem?_eq_getElem hmid] at hnone
    exact nomatch hnone
  | case2 lo hi hlt mid y hy hcmp =>
    constructor
    · intro heq
      obtain rfl := Option.some.inj heq
      exact ⟨mid, by omega, by omega, hy, (Std.LawfulEqOrd.eq_of_compare hcmp).symm⟩
    · rintro ⟨i, -, -, hx, rfl⟩
      rw [h.compare_eq hx hy, Nat.compare_eq_eq] at hcmp
      rw [← hx, ← hy, hcmp]
  | case3 lo hi hlt mid y hy hcmp ih =>
    refine (ih (by omega)).trans ⟨?_, ?_⟩
    · rintro ⟨i, hlo, hi', hx, hkey⟩
      exact ⟨i, hlo, by omega, hx, hkey⟩
    · rintro ⟨i, hlo, -, hx, rfl⟩
      rw [h.compare_eq hx hy, Nat.compare_eq_lt] at hcmp
      exact ⟨i, hlo, hcmp, hx, rfl⟩
  | case4 lo hi hlt mid y hy hcmp ih =>
    refine (ih hhi).trans ⟨?_, ?_⟩
    · rintro ⟨i, hlo, hi', hx, hkey⟩
      exact ⟨i, by omega, hi', hx, hkey⟩
    · rintro ⟨i, -, hi', hx, rfl⟩
      rw [h.compare_eq hx hy, Nat.compare_eq_gt] at hcmp
      exact ⟨i, hcmp, hi', hx, rfl⟩
  | case5 lo hi hempty =>
    simp only [reduceCtorEq, false_iff]
    rintro ⟨i, hlo, hi', -⟩
    omega

/-- **Halving finds what is there.** -/
theorem bisect?_eq_some_iff (h : Ascending key a) :
    bisect? key k a = some x ↔ x ∈ a.toList ∧ key x = k := by
  unfold bisect?
  rw [bisectBetween?_eq_some_iff h (Nat.le_refl _), Array.mem_toList_iff, Array.mem_iff_getElem?]
  constructor
  · rintro ⟨i, -, -, hx, hkey⟩
    exact ⟨⟨i, hx⟩, hkey⟩
  · rintro ⟨⟨i, hx⟩, hkey⟩
    obtain ⟨hi, -⟩ := Array.getElem?_eq_some_iff.mp hx
    exact ⟨i, Nat.zero_le i, hi, hx, hkey⟩

end Bisection

/-! ## Calls of a builder -/

/-- A rule of either table. -/
inductive TableRule where
  | access (r : AccessRule)
  | label (r : LabelRule)
  deriving DecidableEq

namespace TableRule

def id : TableRule → RuleId
  | .access r => r.id
  | .label r => r.id

/-- The rule in the policy language. -/
def render : TableRule → String
  | .access r => r.render
  | .label r => r.render

def access? : TableRule → Option AccessRule
  | .access r => some r
  | .label _ => none

def label? : TableRule → Option LabelRule
  | .access _ => none
  | .label r => some r

variable {rule : TableRule}

theorem access?_eq_some_iff {r : AccessRule} : rule.access? = some r ↔ rule = .access r := by
  cases rule <;> simp [access?]

theorem label?_eq_some_iff {r : LabelRule} : rule.label? = some r ↔ rule = .label r := by
  cases rule <;> simp [label?]

end TableRule

/-- A call of a policy's builder. -/
inductive BuilderCall where
  | addType (name : String)
  | addAlias (primary other : String)
  | addAttribute (name : String) (members : List String)
  | addBoolean (name : String) (value : Bool)
  | setBoolean (name : String) (value : Bool)
  | addAccessRule (kind : AccessKind) (source target cls : String) (perms : List String)
      (guard : Option Guard)
  | addLabelRule (kind : LabelKind) (source target cls default : String) (guard : Option Guard)

namespace BuilderCall

/-- The rule that a call asks for, under a reference. -/
def rule? (id : RuleId) : BuilderCall → Option TableRule
  | .addAccessRule kind source target cls perms guard =>
    some (.access { id, kind, source, target, cls, perms := .ofList perms, guard })
  | .addLabelRule kind source target cls default guard =>
    some (.label { id, kind, source, target, cls, default, guard })
  | _ => none

/-- Does the call add a rule? -/
def addsRule : BuilderCall → Bool
  | .addAccessRule .. | .addLabelRule .. => true
  | _ => false

/-- The call made on a policy: the reference that it answers with, if it adds a rule, and the policy
then. -/
def run (p : Policy) : BuilderCall → Option RuleId × Policy
  | .addType name => (none, p.addType name)
  | .addAlias primary other => (none, p.addAlias primary other)
  | .addAttribute name members => (none, p.addAttribute name members)
  | .addBoolean name value => (none, p.addBoolean name value)
  | .setBoolean name value => (none, (p.setBoolean name value).2)
  | .addAccessRule kind source target cls perms guard =>
    let (id, p) := p.addAccessRule kind source target cls perms guard
    (some id, p)
  | .addLabelRule kind source target cls default guard =>
    let (id, p) := p.addLabelRule kind source target cls default guard
    (some id, p)

/-- The tables and the counter are as they were. -/
structure Spares (p p' : Policy) : Prop where
  access : p'.accessRules = p.accessRules
  labels : p'.labelRules = p.labelRules
  next : p'.nextRule = p.nextRule

/-- A rule under the next reference has come to the end of its table. -/
structure Adds (p p' : Policy) (rule : TableRule) : Prop where
  id : rule.id = ⟨p.nextRule⟩
  access : p'.accessRules.toList = p.accessRules.toList ++ rule.access?.toList
  labels : p'.labelRules.toList = p.labelRules.toList ++ rule.label?.toList
  next : p'.nextRule = p.nextRule + 1

/-- **What one call does**: it adds the rule that it asks for under the next reference, with which it
answers, or spares the tables. -/
theorem run_cases (p : Policy) (c : BuilderCall) :
    (c.addsRule = false ∧ (c.run p).1 = none ∧ Spares p (c.run p).2) ∨
      ∃ rule, c.addsRule = true ∧ c.rule? ⟨p.nextRule⟩ = some rule ∧ (c.run p).1 = some ⟨p.nextRule⟩ ∧
        Adds p (c.run p).2 rule := by
  cases c with
  | addType | addAlias | addAttribute | addBoolean => exact .inl ⟨rfl, rfl, rfl, rfl, rfl⟩
  | setBoolean name value =>
    refine .inl ⟨rfl, rfl, ?_⟩
    show Spares p (p.setBoolean name value).2
    unfold Policy.setBoolean
    split
    · exact ⟨rfl, rfl, rfl⟩
    · exact ⟨rfl, rfl, rfl⟩
  | addAccessRule =>
    exact .inr ⟨_, rfl, rfl, rfl, rfl, Array.toList_push, (List.append_nil _).symm, rfl⟩
  | addLabelRule =>
    exact .inr ⟨_, rfl, rfl, rfl, rfl, (List.append_nil _).symm, Array.toList_push, rfl⟩

end BuilderCall

/-! ## What calls have added -/

/-- A policy that is being built, and the references that calls have answered with, each with the rule that
the call asked for. -/
structure Building where
  policy : Policy := .empty
  added : List (RuleId × TableRule) := []

namespace Building

/-- One more call. -/
def call (b : Building) (c : BuilderCall) : Building where
  policy := (c.run b.policy).2
  added := b.added ++ ((c.run b.policy).1.bind fun id => (c.rule? id).map fun rule => (id, rule)).toList

/-- What calls build, beginning with nothing. -/
def after (calls : List BuilderCall) : Building := calls.foldl call {}

/-- The tables hold the rules added, in order, under references that ascend; the counter counts them. -/
structure Recorded (b : Building) : Prop where
  access : b.policy.accessRules.toList = b.added.filterMap fun e => e.2.access?
  labels : b.policy.labelRules.toList = b.added.filterMap fun e => e.2.label?
  own : ∀ e ∈ b.added, e.2.id = e.1
  ascending : b.added.Pairwise fun e e' => e.1.raw < e'.1.raw
  below : ∀ e ∈ b.added, e.1.raw < b.policy.nextRule
  counted : b.policy.nextRule.toNat = b.added.length

open BuilderCall

variable {b : Building} {id : RuleId}

theorem recorded_empty : Recorded {} where
  access := rfl
  labels := rfl
  own _ := (nomatch ·)
  ascending := .nil
  below _ := (nomatch ·)
  counted := rfl

theorem Recorded.keeps (h : b.Recorded) {p : Policy} (hspares : Spares b.policy p) :
    Recorded ⟨p, b.added⟩ where
  access := hspares.access ▸ h.access
  labels := hspares.labels ▸ h.labels
  own := h.own
  ascending := h.ascending
  below := hspares.next ▸ h.below
  counted := hspares.next ▸ h.counted

theorem Recorded.extended (h : b.Recorded) (room : b.added.length + 1 < UInt32.size) {p : Policy}
    {rule : TableRule} (hadds : Adds b.policy p rule) :
    Recorded ⟨p, b.added ++ [(⟨b.policy.nextRule⟩, rule)]⟩ := by
  have hroom : b.policy.nextRule.toNat + 1 < UInt32.size := h.counted ▸ room
  have hnext := Policy.lt_nextRule hroom
  refine ⟨?_, ?_, ?_, ?_, ?_, ?_⟩
  · rw [hadds.access, h.access, List.filterMap_append]
    cases rule <;> rfl
  · rw [hadds.labels, h.labels, List.filterMap_append]
    cases rule <;> rfl
  · intro e he
    rcases List.mem_append.mp he with hold | hnew
    · exact h.own e hold
    · rw [List.mem_singleton.mp hnew]
      exact hadds.id
  · refine List.pairwise_append.mpr ⟨h.ascending, List.pairwise_singleton _ _, fun e he e' he' => ?_⟩
    rw [List.mem_singleton.mp he']
    exact h.below e he
  · intro e he
    show e.1.raw < p.nextRule
    rw [hadds.next]
    rcases List.mem_append.mp he with hold | hnew
    · exact UInt32.lt_trans (h.below e hold) hnext
    · rw [List.mem_singleton.mp hnew]
      exact hnext
  · show p.nextRule.toNat = _
    rw [hadds.next, UInt32.toNat_add, List.length_append, List.length_singleton, ← h.counted]
    exact Nat.mod_eq_of_lt hroom

/-- A call that adds a rule extends the record by it, and any other leaves the record as it is. -/
theorem Recorded.call (h : b.Recorded) (c : BuilderCall)
    (room : b.added.length + (if c.addsRule then 1 else 0) < UInt32.size) :
    (b.call c).Recorded ∧ (b.call c).added.length = b.added.length + if c.addsRule then 1 else 0 := by
  unfold Building.call
  rcases c.run_cases b.policy with ⟨hrule, hid, hspares⟩ | ⟨rule, hrule, hasks, hid, hadds⟩
  · rw [hid, hrule]
    exact ⟨by simpa using h.keeps hspares, by simp⟩
  · rw [if_pos hrule] at room
    rw [hid, hrule]
    exact ⟨by simpa [hasks] using h.extended room hadds, by simp [hasks]⟩

/-- By induction on the calls: the record grows by those that add rules. -/
theorem Recorded.calls (calls : List BuilderCall) (h : b.Recorded)
    (hfew : b.added.length + calls.countP BuilderCall.addsRule < UInt32.size) :
    (calls.foldl Building.call b).Recorded := by
  induction calls generalizing b with
  | nil => exact h
  | cons c calls ih =>
    rw [List.countP_cons] at hfew
    obtain ⟨hcall, hlength⟩ := h.call c (by omega)
    exact ih hcall (by omega)

theorem recorded_after {calls : List BuilderCall} (hfew : calls.countP BuilderCall.addsRule < UInt32.size) :
    (after calls).Recorded :=
  recorded_empty.calls calls (by rwa [List.length_nil, Nat.zero_add])

/-! ## Lookups in a building -/

theorem Recorded.nodup_ids (h : b.Recorded) : (b.added.map Prod.fst).Nodup := by
  refine List.pairwise_map.mpr (h.ascending.imp fun {e e'} hlt heq => ?_)
  rw [heq] at hlt
  exact UInt32.lt_irrefl _ hlt

theorem Recorded.eq_of_mem (h : b.Recorded) {rule rule' : TableRule} (hrule : (id, rule) ∈ b.added)
    (hrule' : (id, rule') ∈ b.added) : rule = rule' :=
  (Prod.mk.inj (List.inj_on_of_nodup_map h.nodup_ids hrule hrule' rfl)).2

/-- The references of rules as they stand in the record. -/
theorem Recorded.pairwise_id (h : b.Recorded) :
    b.added.Pairwise fun e e' => compare e.2.id e'.2.id = .lt := by
  refine h.ascending.imp_of_mem fun {e e'} he he' hlt => ?_
  rw [h.own e he, h.own e' he']
  exact RuleId.compare_eq_lt_iff.mpr hlt

/-! ### One of the tables -/

section Tables

variable {α : Type} {part? : TableRule → Option α} {whole : α → TableRule} {key : α → RuleId}
  {table : Array α}

/-- The table holds the rules of one kind that have been added, in order. -/
structure Holds (b : Building) (part? : TableRule → Option α) (whole : α → TableRule)
    (key : α → RuleId) (table : Array α) : Prop where
  part_iff : ∀ {rule r}, part? rule = some r ↔ rule = whole r
  key_eq : ∀ r, (whole r).id = key r
  rules : table.toList = b.added.filterMap fun e => part? e.2

theorem Recorded.holds_access (h : b.Recorded) :
    b.Holds TableRule.access? .access AccessRule.id b.policy.accessRules :=
  ⟨TableRule.access?_eq_some_iff, fun _ => rfl, h.access⟩

theorem Recorded.holds_labels (h : b.Recorded) :
    b.Holds TableRule.label? .label LabelRule.id b.policy.labelRules :=
  ⟨TableRule.label?_eq_some_iff, fun _ => rfl, h.labels⟩

/-- A table is some of the record, and ascends as the record does. -/
theorem Recorded.ascending_table (h : b.Recorded) (ht : b.Holds part? whole key table) :
    Ascending key table := by
  unfold Ascending
  rw [ht.rules, List.pairwise_filterMap]
  refine h.pairwise_id.imp fun {e e'} hlt r hr r' hr' => ?_
  rwa [ht.part_iff.mp hr, ht.part_iff.mp hr', ht.key_eq, ht.key_eq] at hlt

/-- **A table is searched for a reference** as the record is. -/
theorem Recorded.find_iff (h : b.Recorded) (ht : b.Holds part? whole key table) {r : α} :
    bisect? key id table = some r ↔ (id, whole r) ∈ b.added := by
  rw [bisect?_eq_some_iff (h.ascending_table ht), ht.rules, List.mem_filterMap]
  simp only [ht.part_iff]
  constructor
  · rintro ⟨⟨e, he, hrule⟩, rfl⟩
    have hid := h.own e he
    rw [hrule, ht.key_eq] at hid
    rwa [← hrule, hid]
  · intro he
    exact ⟨⟨_, he, rfl⟩, (ht.key_eq r).symm.trans (h.own _ he)⟩

end Tables

theorem Recorded.ascending_access (h : b.Recorded) : Ascending AccessRule.id b.policy.accessRules :=
  h.ascending_table h.holds_access

theorem Recorded.ascending_labels (h : b.Recorded) : Ascending LabelRule.id b.policy.labelRules :=
  h.ascending_table h.holds_labels

theorem Recorded.accessRule?_eq_some_iff (h : b.Recorded) {r : AccessRule} :
    b.policy.accessRule? id = some r ↔ (id, .access r) ∈ b.added :=
  h.find_iff h.holds_access

theorem Recorded.labelRule?_eq_some_iff (h : b.Recorded) {r : LabelRule} :
    b.policy.labelRule? id = some r ↔ (id, .label r) ∈ b.added :=
  h.find_iff h.holds_labels

/-- No reference is in both tables. -/
theorem Recorded.accessRule?_or_labelRule? (h : b.Recorded) (id : RuleId) :
    b.policy.accessRule? id = none ∨ b.policy.labelRule? id = none := by
  cases haccess : b.policy.accessRule? id with
  | none => exact .inl rfl
  | some r =>
    refine .inr (Option.eq_none_iff_forall_ne_some.mpr fun r' hlabel => ?_)
    have hsame := h.eq_of_mem (h.accessRule?_eq_some_iff.mp haccess) (h.labelRule?_eq_some_iff.mp hlabel)
    exact nomatch hsame

theorem Recorded.render?_eq_some_iff (h : b.Recorded) {text : String} :
    b.policy.render? id = some text ↔ ∃ rule, (id, rule) ∈ b.added ∧ rule.render = text := by
  unfold Policy.render?
  cases haccess : b.policy.accessRule? id with
  | some r =>
    have hr := h.accessRule?_eq_some_iff.mp haccess
    constructor
    · intro htext
      exact ⟨_, hr, Option.some.inj htext⟩
    · rintro ⟨rule, hrule, rfl⟩
      rw [← h.eq_of_mem hr hrule]
      rfl
  | none =>
    simp only [Option.map_eq_some_iff, h.labelRule?_eq_some_iff]
    constructor
    · rintro ⟨r, hr, htext⟩
      exact ⟨_, hr, htext⟩
    · rintro ⟨rule, hrule, rfl⟩
      cases rule with
      | access r => exact nomatch haccess.symm.trans (h.accessRule?_eq_some_iff.mpr hrule)
      | label r => exact ⟨r, hrule, rfl⟩

/-- References are distinct, also across the tables. -/
theorem Recorded.nodup_tables (h : b.Recorded) :
    (b.policy.accessRules.toList.map AccessRule.id ++
      b.policy.labelRules.toList.map LabelRule.id).Nodup := by
  have hne {a b : RuleId} (hlt : compare a b = .lt) : a ≠ b := by
    rintro rfl
    exact UInt32.lt_irrefl _ (RuleId.compare_eq_lt_iff.mp hlt)
  refine List.nodup_append.mpr ⟨List.pairwise_map.mpr (h.ascending_access.imp hne),
    List.pairwise_map.mpr (h.ascending_labels.imp hne), fun id haccess id' hlabel heq => ?_⟩
  subst heq
  obtain ⟨r, hr, hid⟩ := List.mem_map.mp haccess
  obtain ⟨r', hr', hid'⟩ := List.mem_map.mp hlabel
  have hfound : b.policy.accessRule? id = some r := (bisect?_eq_some_iff h.ascending_access).mpr ⟨hr, hid⟩
  have hfound' : b.policy.labelRule? id = some r' :=
    (bisect?_eq_some_iff h.ascending_labels).mpr ⟨hr', hid'⟩
  rcases h.accessRule?_or_labelRule? id with hnone | hnone
  · exact nomatch hnone.symm.trans hfound
  · exact nomatch hnone.symm.trans hfound'

/-- What is looked up in a policy is what has been added to it. -/
structure FindsRules (b : Building) : Prop where
  /-- No reference has been answered twice. -/
  answered_once : (b.added.map Prod.fst).Nodup
  distinct : (b.policy.accessRules.toList.map AccessRule.id ++
    b.policy.labelRules.toList.map LabelRule.id).Nodup
  access_ascending : b.policy.accessRules.toList.Pairwise fun r r' => r.id.raw < r'.id.raw
  labels_ascending : b.policy.labelRules.toList.Pairwise fun r r' => r.id.raw < r'.id.raw
  access : ∀ id r, b.policy.accessRule? id = some r ↔ (id, .access r) ∈ b.added
  label : ∀ id r, b.policy.labelRule? id = some r ↔ (id, .label r) ∈ b.added
  one_table : ∀ id, b.policy.accessRule? id = none ∨ b.policy.labelRule? id = none
  render : ∀ id text,
    b.policy.render? id = some text ↔ ∃ rule, (id, rule) ∈ b.added ∧ rule.render = text

/-- **Every reference finds its rule.** After any calls of the builder, of which fewer add rules than there
are references: references are distinct across both tables, and each table lists its rules by ascending
reference; a reference finds the rule that was added under it, in the table of that rule alone, and is
rendered as that rule; one under which nothing was added finds nothing. -/
theorem references_find_rules (calls : List BuilderCall) (hfew : calls.countP addsRule < UInt32.size) :
    (after calls).FindsRules := by
  have h := recorded_after hfew
  exact
    { answered_once := h.nodup_ids
      distinct := h.nodup_tables
      access_ascending := h.ascending_access.imp RuleId.compare_eq_lt_iff.mp
      labels_ascending := h.ascending_labels.imp RuleId.compare_eq_lt_iff.mp
      access := fun id r => h.accessRule?_eq_some_iff
      label := fun id r => h.labelRule?_eq_some_iff
      one_table := h.accessRule?_or_labelRule?
      render := fun id text => h.render?_eq_some_iff }

/-- Rules of both tables, added in turn. -/
def sampleCalls : List BuilderCall :=
  [.addType "init_t", .addLabelRule .typeTransition "init_t" "exec_t" "process" "httpd_t" none,
    .addAccessRule .allow "init_t" "exec_t" "file" ["execute", "read"] none, .addBoolean "cgi" true,
    .addLabelRule .typeChange "init_t" "tty_t" "chr_file" "user_tty_t" (some ⟨"cgi", true⟩),
    .addAccessRule .neverAllow "init_t" "self" "process" ["ptrace"] none]

theorem sample_references_find :
    sampleCalls.countP addsRule < UInt32.size ∧ (after sampleCalls).FindsRules ∧
      (after sampleCalls).policy.render? ⟨3⟩ = some "neverallow init_t self:process ptrace;" := by
  have hfew : sampleCalls.countP addsRule < UInt32.size := by decide
  refine ⟨hfew, references_find_rules sampleCalls hfew, ?_⟩
  exact ((references_find_rules sampleCalls hfew).render ⟨3⟩ _).mpr
    ⟨_, List.mem_of_getLast? rfl, by decide +kernel⟩

end Building

end PolicyReach
