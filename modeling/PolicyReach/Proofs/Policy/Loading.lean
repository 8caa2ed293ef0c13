import PolicyReach.Proofs.Policy.Coherence

/-!
# What a fixture must declare, and what its policy holds then

A fixture is refused for the first name in its rules that it does not declare: rule by rule, and in each
rule field by field. If there is none, its rules stand in the policy as they are declared.

Model: `RuleDecl.mentions` lists the names in a rule's fields in order; `Fixture.Permits` says which of them
the fixture allows where they stand, and is read off the declarations without a policy; `Fixture.Rejects`
picks the first one that it does not allow.

Results:
* `Policy.Holds`, `holds_names`: the policy that is filled with types and booleans knows the names declared;
* `check_eq_ok_iff`, `check_eq_error_iff`: the check of one rule;
* `ofFixture_eq_ok_iff`, `ofFixture_eq_error_iff`: when a fixture is accepted, and which error it gives;
* `tables_addAll`: where the rules stand, and under which references;
* `coversSome_of_permits`: a rule whose source and target are permitted covers something;
* `Fixture.Loaded`, `loaded_ofFixture`: what the policy of an accepted fixture holds;
* **`ofFixture_exact`**: the parts together.
-/

namespace PolicyReach

/-! ## The names that rules mention -/

/-- The fields of a rule that hold a name. -/
inductive NameField where
  | source
  | target
  | default
  | boolean
  deriving DecidableEq

/-- A name in a field of a rule. -/
structure Mention where
  field : NameField
  name : String
  deriving DecidableEq

/-- The error for a name in the rule at `index`. -/
def Mention.fault (index : Nat) (m : Mention) : PolicyError :=
  if m.field = .boolean then .undeclaredBoolean index m.name else .undeclaredSymbol index m.name

namespace RuleDecl

/-- The symbols in a rule's fields: source, target and, if the rule has one, default. -/
def symbolMentions : RuleDecl → List Mention
  | .access _ source target _ _ _ => [⟨.source, source⟩, ⟨.target, target⟩]
  | .label _ source target _ default _ => [⟨.source, source⟩, ⟨.target, target⟩, ⟨.default, default⟩]

/-- The boolean of a rule's guard, if it has one. -/
def guardMentions (d : RuleDecl) : List Mention := d.guard.toList.map fun g => ⟨.boolean, g.boolean⟩

/-- The names in a rule's fields, in the order source, target, default, boolean. -/
def mentions (d : RuleDecl) : List Mention := d.symbolMentions ++ d.guardMentions

/-- The access rule that is declared at a position. -/
def accessRule? (index : Nat) : RuleDecl → Option AccessRule
  | .access kind source target cls perms guard =>
    some { id := ⟨.ofNat index⟩, kind, source, target, cls, perms := .ofList perms, guard }
  | .label .. => none

/-- The labelling rule that is declared at a position. -/
def labelRule? (index : Nat) : RuleDecl → Option LabelRule
  | .access .. => none
  | .label kind source target cls default guard =>
    some { id := ⟨.ofNat index⟩, kind, source, target, cls, default, guard }

end RuleDecl

/-- Some declaration lists the attribute. -/
def TypeDecl.ListsAttribute (ds : List TypeDecl) (name : String) : Prop :=
  ∃ d ∈ ds, name ∈ d.attributes

instance (ds : List TypeDecl) (name : String) : Decidable (TypeDecl.ListsAttribute ds name) :=
  inferInstanceAs (Decidable (∃ d ∈ ds, name ∈ d.attributes))

namespace Fixture

open TypeDecl

/-- The name is declared as a type, an alias or an attribute. -/
def DeclaresSymbol (f : Fixture) (name : String) : Prop :=
  Declares f.types name ∨ ListsAlias f.types name ∨ ListsAttribute f.types name

/-- The name is declared as a boolean. -/
def DeclaresBoolean (f : Fixture) (name : String) : Prop := ∃ b ∈ f.booleans, b.1 = name

/-- A name is allowed in a field if it is declared; a target may also be the word `self`. -/
def Permits (f : Fixture) (m : Mention) : Prop :=
  match m.field with
  | .source | .default => f.DeclaresSymbol m.name
  | .target => m.name = selfTarget ∨ f.DeclaresSymbol m.name
  | .boolean => f.DeclaresBoolean m.name

/-- Every name in the rule is allowed where it stands. -/
def Accepts (f : Fixture) (d : RuleDecl) : Prop := ∀ m ∈ d.mentions, f.Permits m

/-- The first name in the rule that is not allowed where it stands. -/
def Rejects (f : Fixture) (d : RuleDecl) (m : Mention) : Prop :=
  ∃ before after, d.mentions = before ++ m :: after ∧ (∀ x ∈ before, f.Permits x) ∧ ¬ f.Permits m

/-- The policy of the declared types and booleans, to which no rule has been added yet. -/
def names (f : Fixture) : Policy :=
  f.booleans.foldl (fun p b => p.addBoolean b.1 b.2) (f.types.foldl Policy.addTypeDecl .empty)

end Fixture

namespace Policy

open TypeDecl

variable {f : Fixture} {p p' : Policy} {d : RuleDecl} {m : Mention} {index : Nat} {error : PolicyError}

/-! ## Declared names in the policy -/

/-- The policy knows exactly the names that the fixture declares. -/
structure Holds (f : Fixture) (p : Policy) : Prop where
  symbols : ∀ name, ((p.resolve name).isSome || p.isAttribute name) = true ↔ f.DeclaresSymbol name
  booleans : ∀ name, p.booleans.contains name = true ↔ f.DeclaresBoolean name

theorem isAttribute_addAttributes {member : String} :
    ∀ (l : List String) (p : Policy) (name : String),
      (l.foldl (fun p a => p.addAttribute a [member]) p).isAttribute name = true ↔
        name ∈ l ∨ p.isAttribute name = true
  | [], _, _ => by simp
  | a :: l, p, name => by
    have hone : (p.addAttribute a [member]).isAttribute name = true ↔
        name = a ∨ p.isAttribute name = true := by
      simp only [isAttribute, addAttribute, OrdMap.contains, OrdMap.get?_insertWith]
      by_cases h : name = a <;> simp [h]
    rw [List.foldl_cons, isAttribute_addAttributes l, hone, List.mem_cons, ← or_assoc]
    exact or_congr_left or_comm

theorem isAttribute_addTypeDecl (p : Policy) (t : TypeDecl) (name : String) :
    (p.addTypeDecl t).isAttribute name = true ↔ name ∈ t.attributes ∨ p.isAttribute name = true := by
  unfold addTypeDecl
  rw [isAttribute_addAttributes, isAttribute, attributes_addAliases]
  rfl

/-- The attributes of a policy are those that the declarations list. -/
theorem isAttribute_addTypeDecls :
    ∀ (ds : List TypeDecl) (p : Policy) (name : String),
      (ds.foldl Policy.addTypeDecl p).isAttribute name = true ↔
        ListsAttribute ds name ∨ p.isAttribute name = true
  | [], _, _ => by simp [ListsAttribute]
  | t :: ds, p, name => by
    rw [List.foldl_cons, isAttribute_addTypeDecls ds, isAttribute_addTypeDecl]
    simp only [ListsAttribute, List.exists_mem_cons_iff, ← or_assoc]
    exact or_congr_left or_comm

/-- Declarations of types leave the booleans alone. -/
theorem booleans_addTypeDecl (p : Policy) (t : TypeDecl) :
    (p.addTypeDecl t).booleans = p.booleans := by
  have haliases := List.foldlRecOn (motive := fun q : Policy => q.booleans = p.booleans) t.aliases
    (fun q a => q.addAlias t.name a) (show (p.addType t.name).booleans = p.booleans from rfl)
    fun _ hq _ _ => hq
  exact List.foldlRecOn (motive := fun q : Policy => q.booleans = p.booleans) t.attributes _ haliases
    fun _ hq _ _ => hq

theorem contains_addBooleans :
    ∀ (bs : List (String × Bool)) (p : Policy) (name : String),
      (bs.foldl (fun p b => p.addBoolean b.1 b.2) p).booleans.contains name = true ↔
        (∃ b ∈ bs, b.1 = name) ∨ p.booleans.contains name = true
  | [], _, _ => by simp
  | b :: bs, p, name => by
    have hone : (p.addBoolean b.1 b.2).booleans.contains name = true ↔
        b.1 = name ∨ p.booleans.contains name = true := by
      simp only [addBoolean, OrdMap.contains, OrdMap.get?_insert]
      by_cases h : name = b.1
      · simp [h]
      · simp [h, Ne.symm h]
    rw [List.foldl_cons, contains_addBooleans bs, hone, List.exists_mem_cons_iff, ← or_assoc]
    exact or_congr_left or_comm

theorem fills_names (f : Fixture) : Fills f.types f.names := by
  have htypes : Fills f.types (f.types.foldl Policy.addTypeDecl .empty) := fills_empty.addTypeDecls
  exact List.foldlRecOn f.booleans _ htypes fun _ hq _ _ => ⟨hq.types, hq.aliases, hq.members⟩

/-- **Before its rules are added, the policy of a fixture knows the names that the fixture declares.** -/
theorem holds_names (f : Fixture) : Holds f f.names where
  symbols name := by
    have hattributes : f.names.attributes = (f.types.foldl Policy.addTypeDecl .empty).attributes :=
      List.foldlRecOn (motive := fun q : Policy => q.attributes = _) f.booleans _ rfl fun _ hq _ _ => hq
    have hresolve : (f.names.resolve name).isSome = true ↔
        Declares f.types name ∨ ListsAlias f.types name := by
      rw [Option.isSome_iff_ne_none, Ne, (fills_names f).resolve_eq_none_iff]
      tauto
    have hattribute : f.names.isAttribute name = true ↔ ListsAttribute f.types name := by
      have hall := isAttribute_addTypeDecls f.types .empty name
      unfold isAttribute at hall ⊢
      rw [hattributes, hall]
      simp [Policy.empty, OrdMap.contains,
        show (∅ : OrdMap String (OrdSet TypeName)).get? name = none from OrdMap.get?_empty name]
    rw [Bool.or_eq_true, hresolve, hattribute, or_assoc]
    rfl
  booleans name := by
    have hnone : (f.types.foldl Policy.addTypeDecl .empty).booleans = ∅ :=
      List.foldlRecOn (motive := fun q : Policy => q.booleans = ∅) f.types _ rfl
        fun q hq t _ => (booleans_addTypeDecl q t).trans hq
    unfold Fixture.names
    rw [contains_addBooleans, hnone]
    simp [Fixture.DeclaresBoolean, OrdMap.contains,
      show (∅ : OrdMap String Bool).get? name = none from OrdMap.get?_empty name]

/-- Rules declare nothing. -/
theorem Holds.addTo (h : Holds f p) (d : RuleDecl) : Holds f (d.addTo p) := by
  cases d with
  | access | label => exact ⟨h.symbols, h.booleans⟩

/-! ## Checking one rule -/

/-- Does the policy know what a mention needs? -/
def admits (p : Policy) (m : Mention) : Bool :=
  match m.field with
  | .source | .default => (p.resolve m.name).isSome || p.isAttribute m.name
  | .target => m.name == selfTarget || ((p.resolve m.name).isSome || p.isAttribute m.name)
  | .boolean => p.booleans.contains m.name

theorem Holds.admits_iff (h : Holds f p) (m : Mention) : p.admits m = true ↔ f.Permits m := by
  obtain ⟨field, name⟩ := m
  cases field with
  | source | default => exact h.symbols name
  | target =>
    show (name == selfTarget || _) = true ↔ _
    rw [Bool.or_eq_true, beq_iff_eq, h.symbols]
    rfl
  | boolean => exact h.booleans name

/-- The symbol that a mention needs declared. -/
def symbol? (m : Mention) : Option String :=
  if m.field = .target ∧ m.name = selfTarget then none else some m.name

theorem symbols_eq (d : RuleDecl) : d.symbols = d.symbolMentions.filterMap symbol? := by
  cases d with
  | access kind source target cls perms guard =>
    by_cases hself : target = selfTarget <;>
      simp [RuleDecl.symbols, RuleDecl.symbolMentions, symbol?, hself]
  | label kind source target cls default guard =>
    by_cases hself : target = selfTarget <;>
      simp [RuleDecl.symbols, RuleDecl.symbolMentions, symbol?, hself]

theorem field_of_symbolMentions (h : m ∈ d.symbolMentions) : m.field ≠ .boolean := by
  cases d with
  | access | label =>
    simp only [RuleDecl.symbolMentions, List.mem_cons, List.not_mem_nil, or_false] at h
    rcases h with rfl | rfl | rfl <;> exact (nomatch ·)

/-- A symbol is known if it need not be declared, or is. -/
theorem not_admits_eq (p : Policy) (h : m.field ≠ .boolean) :
    (!p.admits m) = (symbol? m).any fun s => !((p.resolve s).isSome || p.isAttribute s) := by
  obtain ⟨field, name⟩ := m
  cases field with
  | source | default => rfl
  | target => by_cases hself : name = selfTarget <;> simp [admits, symbol?, hself]
  | boolean => exact absurd rfl h

/-- **The check of a rule** goes through its mentions in order, and gives the fault of the first that the
policy does not know. -/
theorem check_eq (p : Policy) (index : Nat) (d : RuleDecl) :
    d.check p index =
      (d.mentions.find? fun m => !p.admits m).elim (.ok ()) fun m => .error (m.fault index) := by
  have hsymbols : (d.symbols.find? fun s => !((p.resolve s).isSome || p.isAttribute s)) =
      (d.symbolMentions.find? fun m => !p.admits m).bind symbol? := by
    rw [symbols_eq, List.find?_filterMap]
    congr 1
    rw [← List.head?_filter, ← List.head?_filter]
    exact congrArg List.head? (List.filter_congr fun m hm =>
      (not_admits_eq p (field_of_symbolMentions hm)).symm)
  unfold RuleDecl.check RuleDecl.mentions
  rw [hsymbols, List.find?_append]
  cases hfirst : d.symbolMentions.find? fun m => !p.admits m with
  | some m =>
    have hfield := field_of_symbolMentions (List.mem_of_find?_eq_some hfirst)
    have hlacks := List.find?_some hfirst
    rw [not_admits_eq p hfield, Option.any_eq_true] at hlacks
    obtain ⟨name, hname, -⟩ := hlacks
    have hsame : name = m.name := by
      unfold symbol? at hname
      split at hname
      · exact nomatch hname
      · exact (Option.some.inj hname).symm
    simp [hname, hsame, Mention.fault, hfield]
  | none =>
    simp only [Option.bind_none, Option.none_or, RuleDecl.guardMentions]
    cases d.guard with
    | none => rfl
    | some g =>
      by_cases hb : p.booleans.contains g.boolean = true <;> simp [admits, hb, Mention.fault]

theorem check_eq_ok_iff (h : Holds f p) : d.check p index = .ok () ↔ f.Accepts d := by
  rw [check_eq]
  unfold Fixture.Accepts
  simp only [← h.admits_iff]
  cases hfirst : d.mentions.find? fun m => !p.admits m with
  | none =>
    rw [List.find?_eq_none] at hfirst
    simpa using hfirst
  | some m =>
    have hlacks := List.find?_some hfirst
    simp only [Option.elim_some, reduceCtorEq, false_iff]
    intro hall
    simp [hall m (List.mem_of_find?_eq_some hfirst)] at hlacks

theorem check_eq_error_iff (h : Holds f p) :
    d.check p index = .error error ↔ ∃ m, f.Rejects d m ∧ error = m.fault index := by
  have hrejects (m : Mention) :
      f.Rejects d m ↔ (d.mentions.find? fun m => !p.admits m) = some m := by
    simp only [Fixture.Rejects, List.find?_eq_some_iff_append, ← h.admits_iff, Bool.not_eq_true',
      Bool.not_not, Bool.not_eq_true]
    tauto
  rw [check_eq]
  simp only [hrejects]
  cases d.mentions.find? fun m => !p.admits m with
  | none => simp
  | some m => simp [eq_comm]

/-! ## Checking and adding all rules -/

/-- The rules checked one by one and added, the first of them at position `index`. -/
def addRules (ds : List RuleDecl) (index : Nat) (p : Policy) : Except PolicyError Policy :=
  (ds.zipIdx index).foldlM (fun p e => (e.1.check p e.2).map fun _ => e.1.addTo p) p

theorem addRules_cons (ds : List RuleDecl) :
    addRules (d :: ds) index p =
      (d.check p index).bind fun _ => addRules ds (index + 1) (d.addTo p) := by
  unfold addRules
  rw [List.zipIdx_cons, List.foldlM_cons]
  cases d.check p index <;> rfl

/-- All rules are added exactly if all are accepted. -/
theorem addRules_eq_ok_iff {ds : List RuleDecl} (h : Holds f p) :
    addRules ds index p = .ok p' ↔
      (∀ d ∈ ds, f.Accepts d) ∧ p' = ds.foldl (fun p d => d.addTo p) p := by
  induction ds generalizing p index with
  | nil => simp [addRules, pure, Except.pure, eq_comm]
  | cons d ds ih =>
    have hcheck_iff : d.check p index = .ok () ↔ f.Accepts d := check_eq_ok_iff h
    rw [addRules_cons, List.forall_mem_cons, List.foldl_cons, ← hcheck_iff]
    cases hcheck : d.check p index with
    | ok => simpa [Except.bind] using ih (h.addTo d)
    | error e => simp [Except.bind]

/-- A rule that is not accepted stops the others, and gives the error. -/
theorem addRules_eq_error_iff {ds : List RuleDecl} (h : Holds f p) :
    addRules ds index p = .error error ↔
      ∃ earlier d later m, ds = earlier ++ d :: later ∧ (∀ x ∈ earlier, f.Accepts x) ∧
        f.Rejects d m ∧ error = m.fault (index + earlier.length) := by
  induction ds generalizing p index with
  | nil => simp [addRules, pure, Except.pure]
  | cons d ds ih =>
    rw [addRules_cons]
    cases hcheck : d.check p index with
    | ok =>
      have haccepts := (check_eq_ok_iff h).mp hcheck
      show addRules ds (index + 1) (d.addTo p) = _ ↔ _
      rw [ih (h.addTo d)]
      constructor
      · rintro ⟨earlier, x, later, m, rfl, hearlier, hrejects, rfl⟩
        refine ⟨d :: earlier, x, later, m, rfl, List.forall_mem_cons.mpr ⟨haccepts, hearlier⟩, hrejects, ?_⟩
        rw [List.length_cons, Nat.add_right_comm, Nat.add_assoc]
      · rintro ⟨earlier, x, later, m, hsplit, hearlier, hrejects, rfl⟩
        cases earlier with
        | nil =>
          -- the first rule has been accepted
          obtain ⟨rfl, rfl⟩ := List.cons.inj hsplit
          obtain ⟨before, after, hmentions, -, hnot⟩ := hrejects
          exact absurd (haccepts m (by simp [hmentions])) hnot
        | cons y earlier =>
          obtain ⟨rfl, rfl⟩ := List.cons.inj hsplit
          refine ⟨earlier, x, later, m, rfl, (List.forall_mem_cons.mp hearlier).2, hrejects, ?_⟩
          rw [List.length_cons, Nat.add_right_comm, Nat.add_assoc]
    | error e =>
      show Except.error e = Except.error error ↔ _
      obtain ⟨m, hrejects, rfl⟩ := (check_eq_error_iff h).mp hcheck
      constructor
      · intro hsame
        exact ⟨[], d, ds, m, rfl, fun _ hx => (nomatch hx), hrejects, (Except.error.inj hsame).symm⟩
      · rintro ⟨earlier, x, later, m', hsplit, hearlier, hrejects', rfl⟩
        cases earlier with
        | nil =>
          obtain ⟨rfl, rfl⟩ := List.cons.inj hsplit
          have hsame := hcheck.symm.trans ((check_eq_error_iff h).mpr ⟨m', hrejects', rfl⟩)
          exact congrArg Except.error (Except.error.inj hsame)
        | cons y earlier =>
          obtain ⟨rfl, rfl⟩ := List.cons.inj hsplit
          obtain ⟨before, after, hmentions, -, hnot⟩ := hrejects
          exact absurd (hearlier d List.mem_cons_self m (by simp [hmentions])) hnot

theorem ofFixture_eq (f : Fixture) : ofFixture f = addRules f.rules 0 f.names := rfl

/-- **When a fixture is accepted.** -/
theorem ofFixture_eq_ok_iff :
    ofFixture f = .ok p ↔
      (∀ d ∈ f.rules, f.Accepts d) ∧ p = f.rules.foldl (fun p d => d.addTo p) f.names := by
  rw [ofFixture_eq, addRules_eq_ok_iff (holds_names f)]

/-- **Which error a fixture gives**: that of the first name not allowed in the first rule that has one. -/
theorem ofFixture_eq_error_iff :
    ofFixture f = .error error ↔
      ∃ earlier d later m, f.rules = earlier ++ d :: later ∧ (∀ x ∈ earlier, f.Accepts x) ∧
        f.Rejects d m ∧ error = m.fault earlier.length := by
  rw [ofFixture_eq, addRules_eq_error_iff (holds_names f)]
  simp only [Nat.zero_add]

/-! ## Where the rules stand -/

theorem tables_addTo (hnext : p.nextRule = .ofNat index) (d : RuleDecl) :
    (d.addTo p).accessRules.toList = p.accessRules.toList ++ (d.accessRule? index).toList ∧
      (d.addTo p).labelRules.toList = p.labelRules.toList ++ (d.labelRule? index).toList ∧
      (d.addTo p).nextRule = .ofNat (index + 1) := by
  have hsucc : p.nextRule + 1 = .ofNat (index + 1) := by
    rw [hnext, UInt32.ofNat_add]
    rfl
  cases d with
  | access kind source target cls perms guard =>
    refine ⟨?_, (List.append_nil _).symm, hsucc⟩
    show (p.accessRules.push _).toList = _
    rw [Array.toList_push, hnext]
    rfl
  | label kind source target cls default guard =>
    refine ⟨(List.append_nil _).symm, ?_, hsucc⟩
    show (p.labelRules.push _).toList = _
    rw [Array.toList_push, hnext]
    rfl

/-- Rules that are added stand in order, each in the table of its kind, and are counted together. -/
theorem tables_addAll (ds : List RuleDecl) (hnext : p.nextRule = .ofNat index) :
    (ds.foldl (fun p d => d.addTo p) p).accessRules.toList =
        p.accessRules.toList ++ (ds.zipIdx index).filterMap (fun e => e.1.accessRule? e.2) ∧
      (ds.foldl (fun p d => d.addTo p) p).labelRules.toList =
        p.labelRules.toList ++ (ds.zipIdx index).filterMap fun e => e.1.labelRule? e.2 := by
  induction ds generalizing p index with
  | nil => simp
  | cons d ds ih =>
    obtain ⟨haccess, hlabel, hnext'⟩ := tables_addTo hnext d
    obtain ⟨haccess', hlabel'⟩ := ih hnext'
    rw [List.foldl_cons, haccess', hlabel', haccess, hlabel, List.zipIdx_cons]
    constructor
    · cases hd : d.accessRule? index <;> simp [hd]
    · cases hd : d.labelRule? index <;> simp [hd]

/-- Declarations of names leave the tables of rules empty, and the counter where it begins. -/
theorem tables_names (f : Fixture) :
    f.names.accessRules = #[] ∧ f.names.labelRules = #[] ∧ f.names.nextRule = .ofNat 0 := by
  let Blank (q : Policy) : Prop := q.accessRules = #[] ∧ q.labelRules = #[] ∧ q.nextRule = .ofNat 0
  have hdecl (q : Policy) (hq : Blank q) (t : TypeDecl) : Blank (q.addTypeDecl t) := by
    have haliases := List.foldlRecOn (motive := Blank) t.aliases (fun q a => q.addAlias t.name a)
      (show Blank (q.addType t.name) from hq) fun _ hq _ _ => hq
    exact List.foldlRecOn (motive := Blank) t.attributes _ haliases fun _ hq _ _ => hq
  have htypes : Blank (f.types.foldl Policy.addTypeDecl .empty) :=
    List.foldlRecOn (motive := Blank) f.types _ ⟨rfl, rfl, rfl⟩ fun q hq t _ => hdecl q hq t
  exact List.foldlRecOn (motive := Blank) f.booleans _ htypes fun _ hq _ _ => hq

/-! ## What rules cover -/

/-- A rule with this source and target covers a pair of concrete types. -/
def CoversSome (p : Policy) (source target : String) : Prop :=
  ∃ s t, (s, t) ∈ p.rulePairs source target ∧ p.Knows s ∧ p.Knows t

/-- A declared symbol stands for some type. -/
theorem exists_expand (h : Fills f.types p) {name : String} (hname : f.DeclaresSymbol name) :
    ∃ t, t ∈ p.expand name := by
  unfold expand
  cases hresolve : p.resolve name with
  | some t => exact ⟨t, OrdSet.mem_singleton.mpr rfl⟩
  | none =>
    -- it is an attribute, and some type has been declared with it
    obtain ⟨hno, hno'⟩ := h.resolve_eq_none_iff.mp hresolve
    obtain ⟨t, ht, hattribute⟩ := (hname.resolve_left hno).resolve_left hno'
    exact ⟨⟨t.name⟩, (h.members name ⟨t.name⟩).mpr ⟨t, ht, rfl, hattribute⟩⟩

/-- **A rule whose symbols are declared covers something.** -/
theorem coversSome_of_permits (hfills : Fills f.types p) (hdeclared : p.Declared)
    {source target : String} (hsource : f.Permits ⟨.source, source⟩)
    (htarget : f.Permits ⟨.target, target⟩) : p.CoversSome source target := by
  obtain ⟨s, hs⟩ := exists_expand hfills hsource
  have hknown := hdeclared.knows_expanded hs
  unfold CoversSome rulePairs
  by_cases hself : target = selfTarget
  · refine ⟨s, s, ?_, hknown, hknown⟩
    rw [if_pos hself]
    exact List.mem_map.mpr ⟨s, OrdSet.mem_toList.mpr hs, rfl⟩
  · obtain ⟨t, ht⟩ := exists_expand hfills (htarget.resolve_left hself)
    refine ⟨s, t, ?_, hknown, hdeclared.knows_expanded ht⟩
    rw [if_neg hself]
    exact List.mem_flatMap.mpr ⟨s, OrdSet.mem_toList.mpr hs,
      List.mem_map.mpr ⟨t, OrdSet.mem_toList.mpr ht, rfl⟩⟩

end Policy

/-! ## The policy of an accepted fixture -/

/-- The rules of the policy are those of the fixture, with positions for references, and none of them
covers nothing. -/
structure Fixture.Loaded (f : Fixture) (p : Policy) : Prop where
  access : p.accessRules.toList = f.rules.zipIdx.filterMap fun e => e.1.accessRule? e.2
  labels : p.labelRules.toList = f.rules.zipIdx.filterMap fun e => e.1.labelRule? e.2
  access_at : ∀ r ∈ p.accessRules.toList, ∃ d, f.rules[r.id.raw.toNat]? = some d ∧
    d.accessRule? r.id.raw.toNat = some r
  labels_at : ∀ r ∈ p.labelRules.toList, ∃ d, f.rules[r.id.raw.toNat]? = some d ∧
    d.labelRule? r.id.raw.toNat = some r
  access_covers : ∀ r ∈ p.accessRules.toList, p.CoversSome r.source r.target
  labels_covers : ∀ r ∈ p.labelRules.toList, p.CoversSome r.source r.target

namespace Policy

variable {f : Fixture} {p : Policy} {d : RuleDecl} {index : Nat}

theorem of_accessRule? {r : AccessRule} (h : d.accessRule? index = some r) :
    r.id = ⟨.ofNat index⟩ ∧ ⟨.source, r.source⟩ ∈ d.mentions ∧ ⟨.target, r.target⟩ ∈ d.mentions := by
  cases d with
  | access =>
    obtain rfl := Option.some.inj h
    simp [RuleDecl.mentions, RuleDecl.symbolMentions]
  | label => exact nomatch h

theorem of_labelRule? {r : LabelRule} (h : d.labelRule? index = some r) :
    r.id = ⟨.ofNat index⟩ ∧ ⟨.source, r.source⟩ ∈ d.mentions ∧ ⟨.target, r.target⟩ ∈ d.mentions := by
  cases d with
  | access => exact nomatch h
  | label =>
    obtain rfl := Option.some.inj h
    simp [RuleDecl.mentions, RuleDecl.symbolMentions]

/-- A rule in a table of a fixture's rules is declared at some position. -/
theorem exists_declared {ρ : Type} {rule? : Nat → RuleDecl → Option ρ} {r : ρ}
    (hr : r ∈ f.rules.zipIdx.filterMap fun e => rule? e.2 e.1) :
    ∃ d index, f.rules[index]? = some d ∧ rule? index d = some r := by
  obtain ⟨⟨d, index⟩, hd, hrule⟩ := List.mem_filterMap.mp hr
  exact ⟨d, index, List.mem_zipIdx_iff_getElem?.mp hd, hrule⟩

/-- A position is below the number of words, so the reference that stands for it tells which one it is. -/
theorem toNat_position (hfew : f.rules.length < UInt32.size) (hd : f.rules[index]? = some d) :
    (UInt32.ofNat index).toNat = index :=
  UInt32.toNat_ofNat_of_lt (Nat.lt_trans (List.getElem?_eq_some_iff.mp hd).1 hfew)

/-- **The rules of an accepted fixture are all in its policy**, and they cover something. -/
theorem loaded_ofFixture (hfew : f.rules.length < UInt32.size) (h : ofFixture f = .ok p) :
    f.Loaded p := by
  have hfills := fills_ofFixture h
  have hdeclared := (assembled_ofFixture h).declared
  obtain ⟨haccepts, hp⟩ := ofFixture_eq_ok_iff.mp h
  obtain ⟨hnone, hnone', hnext⟩ := tables_names f
  obtain ⟨haccess, hlabels⟩ := tables_addAll f.rules hnext
  rw [← hp, hnone, List.nil_append] at haccess
  rw [← hp, hnone', List.nil_append] at hlabels
  have hcovers {d : RuleDecl} {index : Nat} {source target : String} (hd : f.rules[index]? = some d)
      (hsource : ⟨.source, source⟩ ∈ d.mentions) (htarget : ⟨.target, target⟩ ∈ d.mentions) :
      p.CoversSome source target :=
    have hpermits := haccepts d (List.mem_of_getElem? hd)
    coversSome_of_permits hfills hdeclared (hpermits _ hsource) (hpermits _ htarget)
  refine ⟨haccess, hlabels, fun r hr => ?_, fun r hr => ?_, fun r hr => ?_, fun r hr => ?_⟩
  · obtain ⟨d, index, hd, hrule⟩ := exists_declared (haccess ▸ hr)
    rw [(of_accessRule? hrule).1, toNat_position hfew hd]
    exact ⟨d, hd, hrule⟩
  · obtain ⟨d, index, hd, hrule⟩ := exists_declared (hlabels ▸ hr)
    rw [(of_labelRule? hrule).1, toNat_position hfew hd]
    exact ⟨d, hd, hrule⟩
  · obtain ⟨d, index, hd, hrule⟩ := exists_declared (haccess ▸ hr)
    obtain ⟨-, hsource, htarget⟩ := of_accessRule? hrule
    exact hcovers hd hsource htarget
  · obtain ⟨d, index, hd, hrule⟩ := exists_declared (hlabels ▸ hr)
    obtain ⟨-, hsource, htarget⟩ := of_labelRule? hrule
    exact hcovers hd hsource htarget

/-- **A fixture is checked exactly, and its rules are usable.** It is accepted if and only if every name in
its rules is allowed where it stands; else the error is that of the first rule with another name, and of the
first such name in it. The policy of an accepted fixture has the rules that the fixture declares, in order,
each with its position for a reference, and each of them covers a pair of concrete types. -/
theorem ofFixture_exact (f : Fixture) (hfew : f.rules.length < UInt32.size) :
    ((∃ p, ofFixture f = .ok p) ↔ ∀ d ∈ f.rules, f.Accepts d) ∧
    (∀ error, ofFixture f = .error error ↔
      ∃ earlier d later m, f.rules = earlier ++ d :: later ∧ (∀ x ∈ earlier, f.Accepts x) ∧
        f.Rejects d m ∧ error = m.fault earlier.length) ∧
    ∀ p, ofFixture f = .ok p → f.Loaded p := by
  refine ⟨⟨?_, fun hall => ?_⟩, fun error => ofFixture_eq_error_iff, fun p h => loaded_ofFixture hfew h⟩
  · rintro ⟨p, hp⟩
    exact (ofFixture_eq_ok_iff.mp hp).1
  · exact ⟨_, ofFixture_eq_ok_iff.mpr ⟨hall, rfl⟩⟩

end Policy

/-! ## Two fixtures -/

/-- An attribute on itself, and a labelling rule through an alias, guarded. -/
def Fixture.usable : Fixture :=
  { types := [⟨"a", ["x"], ["d"]⟩, ⟨"c", [], ["d"]⟩]
    booleans := [("b", true)]
    rules := [.access .allow "d" "self" "process" ["fork"] none,
      .label .typeTransition "x" "c" "process" "d" (some ⟨"b", false⟩)] }

/-- The same with another rule between the two, which names a type and a boolean that are not declared. -/
def Fixture.faulty : Fixture :=
  { Fixture.usable with
    rules := [.access .allow "d" "self" "process" ["fork"] none,
      .access .allow "a" "e" "file" ["read"] (some ⟨"n", true⟩),
      .label .typeTransition "x" "c" "process" "d" (some ⟨"b", false⟩)] }

/-- The rules of one fixture are loaded; of the other, the undeclared target is what is told. -/
theorem Policy.sample_loading :
    (∃ p, ofFixture .usable = .ok p ∧ Fixture.usable.Loaded p) ∧
      ∃ earlier d later m, Fixture.faulty.rules = earlier ++ d :: later ∧
        (∀ x ∈ earlier, Fixture.faulty.Accepts x) ∧ Fixture.faulty.Rejects d m ∧
        PolicyError.undeclaredSymbol 1 "e" = m.fault earlier.length := by
  obtain ⟨-, -, hloaded⟩ := ofFixture_exact .usable (by decide)
  obtain ⟨-, herror, -⟩ := ofFixture_exact .faulty (by decide)
  exact ⟨⟨_, rfl, hloaded _ rfl⟩, (herror _).mp (by decide +kernel)⟩

end PolicyReach
