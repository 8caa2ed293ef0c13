import PolicyReach.Proofs.Policy.Names

/-!
# Whether names mean what a fixture declares

A fixture may use one string for a type, an alias and an attribute: filling the policy does not check
for it, and a look-up asks types first, then aliases, then attributes. So a name may be captured: an
attribute by a type or an alias of its name, an alias by a type.

Model: `TypeDecl.Declares`, `ListsAlias`, `Assigns` and `primary?` read off the list of declarations what
they say, without a policy; the last declaration that lists an alias has it.

Results:
* `Policy.Fills` holds of the policy of a fixture (**`fills_ofFixture`**): its tables of names hold what the
  declarations say, however names repeat and collide;
* **`resolve_assigned_iff`**: an attribute's name finds no type and covers exactly the types declared with
  it if and only if no declaration has the name as a type or an alias;
* **`aliases_coherent_iff`**: the aliases listed for a type are exactly the other names it is found under if
  and only if none of them is declared as a type;
* `captured_incoherent`: both fail in the policy of `Fixture.captured`, which is accepted.
-/

namespace PolicyReach

theorem TypeName.eq_mk_iff {t : TypeName} {name : String} : t = ⟨name⟩ ↔ t.text = name :=
  ⟨fun h => h ▸ rfl, fun h => h ▸ rfl⟩

/-! ## What declarations say -/

namespace TypeDecl

/-- Some declaration is of the type `name`. -/
def Declares (ds : List TypeDecl) (name : String) : Prop := ∃ d ∈ ds, d.name = name

/-- Some declaration lists `name` as an alias. -/
def ListsAlias (ds : List TypeDecl) (name : String) : Prop := ∃ d ∈ ds, name ∈ d.aliases

/-- Some declaration of the type `name` lists the attribute. -/
def Assigns (ds : List TypeDecl) (attr name : String) : Prop :=
  ∃ d ∈ ds, d.name = name ∧ attr ∈ d.attributes

/-- The type of the last declaration that lists `name` as an alias. -/
def primary? (ds : List TypeDecl) (name : String) : Option String :=
  (ds.reverse.find? fun d => d.aliases.contains name).map TypeDecl.name

instance (ds : List TypeDecl) (name : String) : Decidable (Declares ds name) :=
  inferInstanceAs (Decidable (∃ d ∈ ds, d.name = name))

instance (ds : List TypeDecl) (name : String) : Decidable (ListsAlias ds name) :=
  inferInstanceAs (Decidable (∃ d ∈ ds, name ∈ d.aliases))

instance (ds : List TypeDecl) (attr name : String) : Decidable (Assigns ds attr name) :=
  inferInstanceAs (Decidable (∃ d ∈ ds, d.name = name ∧ attr ∈ d.attributes))

variable {ds : List TypeDecl} {d : TypeDecl} {name attr : String}

theorem declares_concat : Declares (ds ++ [d]) name ↔ name = d.name ∨ Declares ds name := by
  simp only [Declares, List.mem_append, List.mem_singleton, or_and_right, exists_or, exists_eq_left]
  exact or_comm.trans (or_congr_left eq_comm)

theorem assigns_concat :
    Assigns (ds ++ [d]) attr name ↔
      (name = d.name ∧ attr ∈ d.attributes) ∨ Assigns ds attr name := by
  simp only [Assigns, List.mem_append, List.mem_singleton, or_and_right, exists_or, exists_eq_left]
  exact or_comm.trans (or_congr_left (and_congr_left' eq_comm))

theorem primary?_concat :
    primary? (ds ++ [d]) name = if name ∈ d.aliases then some d.name else primary? ds name := by
  unfold primary?
  rw [List.reverse_append, List.reverse_singleton, List.singleton_append, List.find?_cons]
  by_cases h : name ∈ d.aliases
  · rw [if_pos h, List.contains_iff_mem.mpr h]
    rfl
  · rw [if_neg h, Bool.eq_false_iff.mpr (mt List.contains_iff_mem.mp h)]

theorem primary?_eq_none_iff : primary? ds name = none ↔ ¬ ListsAlias ds name := by
  simp only [primary?, ListsAlias, Option.map_eq_none_iff, List.find?_eq_none, List.mem_reverse,
    List.contains_iff_mem, not_exists, not_and]

end TypeDecl

namespace Policy

open TypeDecl

/-! ## One declaration -/

section

variable (p : Policy) (d : TypeDecl)

/-- An alias of a declared type adds no type. -/
theorem mem_types_addAliases {primary : String} :
    ∀ (l : List String) {p : Policy}, primary ∈ p.types → ∀ name,
      name ∈ (l.foldl (fun p a => p.addAlias primary a) p).types ↔ name ∈ p.types
  | [], _, _, _ => Iff.rfl
  | a :: l, p, h, name => by
    have hsame (name : String) : name ∈ (p.addAlias primary a).types ↔ name ∈ p.types :=
      OrdSet.mem_insert.trans (or_iff_right_of_imp fun heq => heq ▸ h)
    rw [List.foldl_cons, mem_types_addAliases l ((hsame primary).mpr h), hsame]

theorem get?_addAliases {primary : String} :
    ∀ (l : List String) (p : Policy) (name : String),
      (l.foldl (fun p a => p.addAlias primary a) p).aliases.get? name =
        if name ∈ l then some primary else p.aliases.get? name
  | [], _, _ => rfl
  | a :: l, p, name => by
    rw [List.foldl_cons, get?_addAliases l, addAlias, OrdMap.get?_insert]
    by_cases hl : name ∈ l
    · rw [if_pos hl, if_pos (List.mem_cons_of_mem a hl)]
    · by_cases ha : name = a <;> simp [hl, ha]

theorem attributes_addAliases {primary : String} (l : List String) (p : Policy) :
    (l.foldl (fun p a => p.addAlias primary a) p).attributes = p.attributes :=
  List.foldlRecOn (motive := fun q : Policy => q.attributes = p.attributes) l _ rfl
    fun _ hq _ _ => hq

theorem mem_addAttribute {attr member name : String} {t : TypeName} :
    t ∈ ((p.addAttribute attr [member]).attributes.get? name).getD ∅ ↔
      (t.text = member ∧ name = attr) ∨ t ∈ (p.attributes.get? name).getD ∅ := by
  have hnew : t ∈ OrdSet.ofList ([member].map TypeName.mk) ↔ t.text = member := by
    rw [OrdSet.mem_ofList, List.map_singleton, List.mem_singleton, TypeName.eq_mk_iff]
  simp only [addAttribute]
  rw [OrdMap.get?_insertWith]
  by_cases hname : name = attr
  · subst hname
    rw [if_pos rfl, Option.getD_some]
    cases hget : p.attributes.get? name with
    | none =>
      rw [Option.map_none, Option.getD_none, Option.getD_none, hnew]
      simp [show ¬ t ∈ (∅ : OrdSet TypeName) from OrdSet.not_mem_empty t]
    | some old =>
      rw [Option.map_some, Option.getD_some, Option.getD_some, OrdSet.mem_union, hnew]
      simp [or_comm]
  · simp [hname]

/-- An attribute with a declared member adds no type. -/
theorem mem_types_addAttributes {member : String} :
    ∀ (l : List String) {p : Policy}, member ∈ p.types → ∀ name,
      name ∈ (l.foldl (fun p a => p.addAttribute a [member]) p).types ↔ name ∈ p.types
  | [], _, _, _ => Iff.rfl
  | a :: l, p, h, name => by
    have hsame (name : String) : name ∈ (p.addAttribute a [member]).types ↔ name ∈ p.types := by
      refine OrdSet.mem_insertAll.trans (or_iff_right_of_imp fun hmem => ?_)
      exact List.mem_singleton.mp hmem ▸ h
    rw [List.foldl_cons, mem_types_addAttributes l ((hsame member).mpr h), hsame]

theorem mem_addAttributes {member : String} {t : TypeName} :
    ∀ (l : List String) (p : Policy) (name : String),
      t ∈ ((l.foldl (fun p a => p.addAttribute a [member]) p).attributes.get? name).getD ∅ ↔
        (t.text = member ∧ name ∈ l) ∨ t ∈ (p.attributes.get? name).getD ∅
  | [], _, _ => by simp
  | a :: l, p, name => by
    rw [List.foldl_cons, mem_addAttributes l, mem_addAttribute, List.mem_cons, and_or_left, ← or_assoc]
    exact or_congr_left or_comm

theorem aliases_addAttributes {member : String} (l : List String) (p : Policy) :
    (l.foldl (fun p a => p.addAttribute a [member]) p).aliases = p.aliases :=
  List.foldlRecOn (motive := fun q : Policy => q.aliases = p.aliases) l _ rfl fun _ hq _ _ => hq

theorem mem_types_addTypeDecl {name : String} :
    name ∈ (p.addTypeDecl d).types ↔ name = d.name ∨ name ∈ p.types := by
  have hself : d.name ∈ (p.addType d.name).types := OrdSet.mem_insert.mpr (Or.inl rfl)
  unfold addTypeDecl
  rw [mem_types_addAttributes _ ((mem_types_addAliases _ hself _).mpr hself),
    mem_types_addAliases _ hself]
  exact OrdSet.mem_insert

theorem aliases_addTypeDecl (name : String) :
    (p.addTypeDecl d).aliases.get? name =
      if name ∈ d.aliases then some d.name else p.aliases.get? name := by
  unfold addTypeDecl
  rw [aliases_addAttributes, get?_addAliases]
  rfl

theorem mem_members_addTypeDecl {name : String} {t : TypeName} :
    t ∈ ((p.addTypeDecl d).attributes.get? name).getD ∅ ↔
      (t.text = d.name ∧ name ∈ d.attributes) ∨ t ∈ (p.attributes.get? name).getD ∅ := by
  unfold addTypeDecl
  rw [mem_addAttributes, attributes_addAliases]
  rfl

end

/-! ## All declarations -/

/-- The tables of names hold what the declarations say. -/
structure Fills (ds : List TypeDecl) (p : Policy) : Prop where
  types : ∀ name, name ∈ p.types ↔ Declares ds name
  aliases : ∀ name, p.aliases.get? name = primary? ds name
  members : ∀ name t, t ∈ (p.attributes.get? name).getD ∅ ↔ Assigns ds name t.text

variable {ds : List TypeDecl} {p : Policy}

theorem fills_empty : Fills [] .empty where
  types name := by simp [Declares, Policy.empty, show ¬ name ∈ (∅ : OrdSet String) from
    OrdSet.not_mem_empty name]
  aliases name := OrdMap.get?_empty name
  members name t := by
    rw [show Policy.empty.attributes.get? name = none from OrdMap.get?_empty name]
    simp [Assigns, show ¬ t ∈ (∅ : OrdSet TypeName) from OrdSet.not_mem_empty t]

theorem Fills.addTypeDecl (h : Fills ds p) (d : TypeDecl) : Fills (ds ++ [d]) (p.addTypeDecl d) where
  types name := by rw [mem_types_addTypeDecl, declares_concat, h.types]
  aliases name := by rw [aliases_addTypeDecl, primary?_concat, h.aliases]
  members name t := by rw [mem_members_addTypeDecl, assigns_concat, h.members]

theorem Fills.addTypeDecls :
    ∀ {ds ds' : List TypeDecl} {p : Policy}, Fills ds p →
      Fills (ds ++ ds') (ds'.foldl Policy.addTypeDecl p)
  | ds, [], p, h => (List.append_nil ds).symm ▸ h
  | ds, d :: ds', p, h => by
    rw [List.append_cons]
    exact (h.addTypeDecl d).addTypeDecls

/-- Rules change no names. -/
theorem Fills.addTo (h : Fills ds p) (r : RuleDecl) : Fills ds (r.addTo p) := by
  cases r with
  | access => exact ⟨h.types, h.aliases, h.members⟩
  | label => exact ⟨h.types, h.aliases, h.members⟩

/-- **The policy of a fixture holds the names that the fixture declares.** -/
theorem fills_ofFixture {f : Fixture} (h : ofFixture f = .ok p) : Fills f.types p := by
  have htypes : Fills f.types (f.types.foldl Policy.addTypeDecl .empty) := fills_empty.addTypeDecls
  have hbooleans : Fills f.types
      (f.booleans.foldl (fun p b => p.addBoolean b.1 b.2) (f.types.foldl Policy.addTypeDecl .empty)) :=
    List.foldlRecOn f.booleans _ htypes fun _ hq _ _ => ⟨hq.types, hq.aliases, hq.members⟩
  refine foldlM_keeps (fun q e q' hq hstep => ?_) hbooleans h
  obtain ⟨-, -, rfl⟩ := map_eq_ok_iff.mp hstep
  exact hq.addTo e.1

/-! ## Looking a name up -/

variable {f : Fixture}

theorem mem_aliasesOf {t : TypeName} {name : String} :
    name ∈ p.aliasesOf t ↔ p.aliases.get? name = some t.text := by
  simp only [aliasesOf, List.mem_map, List.mem_filter, beq_iff_eq, Prod.exists, exists_and_right,
    exists_eq_right, OrdMap.get?_eq_some_iff]

theorem Fills.resolve_eq_none_iff (h : Fills ds p) {name : String} :
    p.resolve name = none ↔ ¬ Declares ds name ∧ ¬ ListsAlias ds name := by
  rw [← h.types, ← primary?_eq_none_iff, ← h.aliases, ← OrdSet.contains_eq_true_iff]
  unfold resolve
  split <;> simp_all

/-- A name that is no type is found through the declaration that has it as an alias. -/
theorem Fills.resolve_eq_some_iff (h : Fills ds p) {name t : String} (hne : name ≠ t) :
    p.resolve name = some ⟨t⟩ ↔ ¬ Declares ds name ∧ primary? ds name = some t := by
  rw [← h.types, ← h.aliases, ← OrdSet.contains_eq_true_iff]
  unfold resolve
  split <;> simp_all

/-- **An attribute's name means its members**, and no type, unless a type or an alias has captured it. -/
theorem resolve_assigned_iff (h : Fills ds p) (name : String) :
    (p.resolve name = none ∧ ∀ t, t ∈ p.expand name ↔ Assigns ds name t.text) ↔
      ¬ Declares ds name ∧ ¬ ListsAlias ds name := by
  rw [← h.resolve_eq_none_iff]
  refine and_iff_left_of_imp fun hnone t => ?_
  rw [← h.members]
  unfold expand
  rw [hnone]

/-- **A type's aliases are the other names it is found under**, unless a type has captured one of them. -/
theorem aliases_coherent_iff (h : Fills ds p) {t : String} (ht : Declares ds t) :
    (∀ name, name ∈ p.aliasesOf ⟨t⟩ ↔ name ≠ t ∧ p.resolve name = some ⟨t⟩) ↔
      ∀ name, primary? ds name = some t → ¬ Declares ds name := by
  simp only [mem_aliasesOf, h.aliases]
  constructor
  · intro hcoherent name hprimary
    obtain ⟨hne, hresolve⟩ := (hcoherent name).mp hprimary
    exact ((h.resolve_eq_some_iff hne).mp hresolve).1
  · intro hfree name
    refine ⟨fun hprimary => ?_, fun hfound => ((h.resolve_eq_some_iff hfound.1).mp hfound.2).2⟩
    have hname := hfree name hprimary
    have hne : name ≠ t := fun heq => hname (heq ▸ ht)
    exact ⟨hne, (h.resolve_eq_some_iff hne).mpr ⟨hname, hprimary⟩⟩

/-- **Names are coherent where no declaration captures them.** In the policy of a fixture, the name of an
attribute finds no type and covers exactly the types that are declared with it if and only if it is declared
neither as a type nor as an alias; and the aliases listed for a declared type are exactly the other names
that it is found under if and only if no name that stands for it is declared as a type. -/
theorem names_coherent_iff (h : ofFixture f = .ok p) :
    (∀ name t, Assigns f.types name t →
      ((p.resolve name = none ∧ ∀ t, t ∈ p.expand name ↔ Assigns f.types name t.text) ↔
        ¬ Declares f.types name ∧ ¬ ListsAlias f.types name)) ∧
    ∀ t, Declares f.types t →
      ((∀ name, name ∈ p.aliasesOf ⟨t⟩ ↔ name ≠ t ∧ p.resolve name = some ⟨t⟩) ↔
        ∀ name, primary? f.types name = some t → ¬ Declares f.types name) :=
  have hfills := fills_ofFixture h
  ⟨fun name _ _ => resolve_assigned_iff hfills name, fun _ ht => aliases_coherent_iff hfills ht⟩

end Policy

/-! ## Two fixtures -/

open TypeDecl

/-- Two types of one attribute, and an alias that both list. -/
def Fixture.distinct : Fixture :=
  { types := [⟨"a", ["x", "y"], ["d"]⟩, ⟨"c", ["y"], ["d"]⟩], booleans := [], rules := [] }

/-- Both parts where no name is declared in two ways. -/
theorem Policy.distinct_coherent :
    ∃ p, ofFixture .distinct = .ok p ∧
      (p.resolve "d" = none ∧ ∀ t, t ∈ p.expand "d" ↔ Assigns Fixture.distinct.types "d" t.text) ∧
      ∀ name, name ∈ p.aliasesOf ⟨"a"⟩ ↔ name ≠ "a" ∧ p.resolve name = some ⟨"a"⟩ := by
  obtain ⟨hattributes, haliases⟩ := names_coherent_iff (f := .distinct) rfl
  have hfree (name : String) (hprimary : primary? Fixture.distinct.types name = some "a") :
      ¬ Declares Fixture.distinct.types name := by
    rintro ⟨d, hd, rfl⟩
    revert d
    decide
  exact ⟨_, rfl, (hattributes "d" "a" (by decide)).mpr (by decide), (haliases "a" (by decide)).mpr hfree⟩

/-- A type of an attribute with an alias, and types under the names of both. -/
def Fixture.captured : Fixture :=
  { types := [⟨"a", ["b"], ["d"]⟩, ⟨"b", [], []⟩, ⟨"c", [], ["d"]⟩, ⟨"d", [], []⟩]
    booleans := []
    rules := [] }

/-- Where a type is declared under an attribute's name and another under an alias, the attribute covers none
of its members, and the alias is listed for a type that it does not find. -/
theorem Policy.captured_incoherent :
    ∃ p, ofFixture .captured = .ok p ∧
      (Assigns Fixture.captured.types "d" "a" ∧ p.resolve "d" = some ⟨"d"⟩ ∧ ¬ ⟨"a"⟩ ∈ p.expand "d") ∧
      Declares Fixture.captured.types "a" ∧ "b" ∈ p.aliasesOf ⟨"a"⟩ ∧ p.resolve "b" ≠ some ⟨"a"⟩ :=
  ⟨_, rfl, by decide +kernel⟩

end PolicyReach
