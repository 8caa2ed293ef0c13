import PolicyReach.Proofs.Relabel.PairGrants
import PolicyReach.Proofs.Session.Reach

/-!
# Relabelling of an object type

Asked about an object type, an analysis gives a result for each subject that can do what the mode asks
for. The mode decides who gets a result, never what stands in it.

* `RelabelQuery.Admits`: the subjects that a query lets through;
* `RelabelResult.Groups`: what stands in the result of a subject: all its rules as two-way ones if it has
  rules of both ways, else the rules of the one way that it has;
* `Policy.mem_relabelOfObject`: a result is that of a pair found, which the query admits and the mode asks
  for;
* **`Policy.objectModes_exact`**: results are ascending by subject, one for each subject admitted that has
  what the mode asks for; and all modes give a subject the same result, so that mode `both` gives what the
  two one-way modes give together.
-/

namespace PolicyReach

/-- The ways of which a mode asks for one. -/
def RelabelMode.asks : RelabelMode → RelabelWay → Bool
  | .toStart, w => w = .toType
  | .fromStart, w => w = .fromType
  | .both, _ | .subject, _ => true

/-- The query lets results about `s` through: one of the names of subjects covers it, if there are any,
and it passes the filter. -/
def RelabelQuery.Admits (q : RelabelQuery) (p : Policy) (s : TypeName) : Prop :=
  (q.subjects.isEmpty = true ∨ ∃ name ∈ q.subjects, s ∈ p.expand name) ∧
    NameFilter.passes q.filter p s = true

namespace RelabelResult

/-- The rules of one way only. -/
def rules (x : RelabelResult) : RelabelWay → List RuleId
  | .toType => x.toRules
  | .fromType => x.fromRules

/-- The result groups the rules between its subject and an object type. -/
structure Groups (x : RelabelResult) (p : Policy) (classes : OrdSet String) (o : TypeName) : Prop where
  /-- A subject with rules of both ways has all of them as two-way rules. -/
  twoWay : (∀ w, p.CanRelabel classes w x.subject o) →
    Enumerates x.bothRules (fun id => ∃ w, p.Relabels classes w x.subject o id) ∧ ∀ w, x.rules w = []
  /-- A subject with rules of one way has these in the list of that way, and no others. -/
  oneWay : ∀ w, p.CanRelabel classes w x.subject o → ¬ p.CanRelabel classes w.other x.subject o →
    Enumerates (x.rules w) (p.Relabels classes w x.subject o) ∧ x.rules w ≠ [] ∧
      x.rules w.other = [] ∧ x.bothRules = []

end RelabelResult

/-! ## The result of one pair -/

namespace PairGrants

variable {g : PairGrants}

theorem admits_iff {mode : RelabelMode} :
    g.admits mode = true ↔ ∃ w, mode.asks w = true ∧ ∃ id, id ∈ g.rules w := by
  rw [RelabelWay.exists_iff .toType]
  cases mode <;> simp [admits, RelabelMode.asks, RelabelWay.other, rules, OrdSet.isEmpty_eq_false_iff]

@[simp]
theorem result_subject (g : PairGrants) (s : TypeName) : (g.result s).subject = s := by
  unfold result
  split <;> rfl

theorem result_of_isTwoWay (h : g.isTwoWay = true) (s : TypeName) :
    (g.result s).bothRules = (g.toRules.union g.fromRules).toList ∧ ∀ w, (g.result s).rules w = [] := by
  unfold result
  rw [if_pos h]
  exact ⟨rfl, fun w => by cases w <;> rfl⟩

theorem result_of_not_isTwoWay (h : g.isTwoWay ≠ true) (s : TypeName) :
    (g.result s).bothRules = [] ∧ ∀ w, (g.result s).rules w = (g.rules w).toList := by
  unfold result
  rw [if_neg h]
  exact ⟨rfl, fun w => by cases w <;> rfl⟩

theorem mem_union_rules {id : RuleId} : id ∈ g.toRules.union g.fromRules ↔ ∃ w, id ∈ g.rules w := by
  rw [OrdSet.mem_union, RelabelWay.exists_iff .toType]
  exact Iff.rfl

/-- The result of a pair groups its rules. -/
theorem result_groups {p : Policy} {classes : OrdSet String} {s o : TypeName}
    (hg : ∀ w id, id ∈ g.rules w ↔ p.Relabels classes w s o id) : (g.result s).Groups p classes o := by
  have hcan (w : RelabelWay) : (∃ id, id ∈ g.rules w) ↔ p.CanRelabel classes w s o :=
    exists_congr (hg w)
  constructor
  · rw [result_subject]
    intro hboth
    obtain ⟨hlist, hrules⟩ :=
      result_of_isTwoWay (isTwoWay_iff.mpr fun w => (hcan w).mpr (hboth w)) s
    rw [hlist]
    exact ⟨OrdSet.enumerates fun id => mem_union_rules.trans (exists_congr fun w => hg w id), hrules⟩
  · rw [result_subject]
    intro w hw hother
    obtain ⟨hlist, hrules⟩ :=
      result_of_not_isTwoWay (fun h => hother ((hcan w.other).mp (isTwoWay_iff.mp h w.other))) s
    have hlists : Enumerates (g.rules w).toList (p.Relabels classes w s o) := OrdSet.enumerates (hg w)
    rw [hlist, hrules, hrules]
    refine ⟨hlists, ?_, ?_, rfl⟩
    · obtain ⟨id, hid⟩ := hw
      exact List.ne_nil_of_mem ((hlists.mem_iff id).mpr hid)
    · refine List.eq_nil_iff_forall_not_mem.mpr fun id hid => hother ⟨id, ?_⟩
      exact (hg w.other id).mp (OrdSet.mem_toList.mp hid)

end PairGrants

/-! ## The results of an analysis -/

namespace Policy

variable {p : Policy} {q : RelabelQuery} {o : TypeName} {results : List RelabelResult}

/-- The subjects that a query counts are those that its names cover. -/
theorem all_relabelSubjects {subjects : Option (OrdSet TypeName)}
    (h : p.relabelSubjects q = .ok subjects) {s : TypeName} :
    (subjects.all fun set => set.contains s) = true ↔
      q.subjects.isEmpty = true ∨ ∃ name ∈ q.subjects, s ∈ p.expand name := by
  unfold relabelSubjects at h
  split at h
  · rename_i hempty
    obtain rfl := Except.ok.inj h
    exact iff_of_true rfl (Or.inl hempty)
  · rename_i hnames
    obtain ⟨set, hset, rfl⟩ := map_eq_ok_iff.mp h
    rw [or_iff_right hnames, Option.all_some, OrdSet.contains_eq_true_iff, mem_expandAll hset]
    simp only [OrdSet.mem_toList]

/-- A result is that of a pair found, with a subject that the query admits and that has what the mode
asks for. -/
theorem mem_relabelOfObject (h : p.relabelOfObject q o = .ok results) {x : RelabelResult} :
    x ∈ results ↔ ∃ g, (p.relabelGrants q.classes .object o).get? x.subject = some g ∧
      q.Admits p x.subject ∧ g.admits q.mode = true ∧ x = g.result x.subject := by
  obtain ⟨subjects, hsubjects, rfl⟩ := map_eq_ok_iff.mp h
  simp only [List.mem_map, List.mem_filter, Bool.and_eq_true, all_relabelSubjects hsubjects,
    RelabelQuery.Admits, OrdMap.get?_eq_some_iff]
  constructor
  · rintro ⟨⟨s, g⟩, ⟨hg, ⟨hsubject, hadmits⟩, hfilter⟩, rfl⟩
    rw [PairGrants.result_subject]
    exact ⟨g, hg, ⟨hsubject, hfilter⟩, hadmits, rfl⟩
  · rintro ⟨g, hg, ⟨hsubject, hfilter⟩, hadmits, hx⟩
    exact ⟨(x.subject, g), ⟨hg, ⟨hsubject, hadmits⟩, hfilter⟩, hx.symm⟩

theorem ascending_relabelOfObject (h : p.relabelOfObject q o = .ok results) :
    results.Pairwise fun x y => compare x.subject y.subject = .lt := by
  obtain ⟨subjects, -, rfl⟩ := map_eq_ok_iff.mp h
  refine List.pairwise_map.mpr (((OrdMap.ascending_entries _).filter _).imp fun hlt => ?_)
  rw [PairGrants.result_subject, PairGrants.result_subject]
  exact hlt

/-- An analysis in another mode succeeds as well. -/
theorem exists_relabelOfObject (h : p.relabelOfObject q o = .ok results) (mode : RelabelMode) :
    ∃ results', p.relabelOfObject { q with mode } o = .ok results' := by
  obtain ⟨subjects, hsubjects, -⟩ := map_eq_ok_iff.mp h
  have hsame : p.relabelSubjects { q with mode } = .ok subjects := hsubjects
  exact ⟨_, map_eq_ok_iff.mpr ⟨subjects, hsame, rfl⟩⟩

/-- In an object mode, an analysis is about the object type that its start names. -/
theorem analyzeRelabel_eq_ok_iff (hmode : q.mode ≠ .subject) :
    p.analyzeRelabel q = .ok results ↔
      ∃ o, p.resolve q.start = some o ∧ p.relabelOfObject q o = .ok results := by
  unfold analyzeRelabel
  cases p.resolve q.start with
  | none => exact ⟨(nomatch ·), fun ⟨_, h, _⟩ => nomatch h⟩
  | some o =>
    simp only [if_neg hmode, Option.some.injEq, exists_eq_left']

/-- A subject gets a result iff the query admits it and it has what the mode asks for. -/
theorem exists_result_iff (h : p.relabelOfObject q o = .ok results) (s : TypeName) :
    (∃ x ∈ results, x.subject = s) ↔
      q.Admits p s ∧ ∃ w, q.mode.asks w = true ∧ p.CanRelabel q.classes w s o := by
  obtain ⟨hexact, hfound⟩ := p.relabelGrants_exact q.classes .object o s
  constructor
  · rintro ⟨x, hx, rfl⟩
    obtain ⟨g, hg, hadmits, hasked, -⟩ := (mem_relabelOfObject h).mp hx
    obtain ⟨w, hw, id, hid⟩ := PairGrants.admits_iff.mp hasked
    exact ⟨hadmits, w, hw, id, (hexact g hg w id).mp hid⟩
  · rintro ⟨hadmits, w, hw, hcan⟩
    obtain ⟨g, hg⟩ := hfound w hcan
    obtain ⟨id, hid⟩ := hcan
    have hasked : g.admits q.mode = true :=
      PairGrants.admits_iff.mpr ⟨w, hw, id, (hexact g hg w id).mpr hid⟩
    refine ⟨g.result s, (mem_relabelOfObject h).mpr ⟨g, ?_⟩, g.result_subject s⟩
    rw [PairGrants.result_subject]
    exact ⟨hg, hadmits, hasked, rfl⟩

theorem groups_of_mem (h : p.relabelOfObject q o = .ok results) {x : RelabelResult}
    (hx : x ∈ results) : x.Groups p q.classes o := by
  obtain ⟨g, hg, -, -, heq⟩ := (mem_relabelOfObject h).mp hx
  rw [heq]
  exact PairGrants.result_groups
    ((p.relabelGrants_exact q.classes .object o x.subject).1 g hg)

/-- The result of a subject does not depend on the mode. -/
theorem eq_of_subject_eq {mode : RelabelMode} {results' : List RelabelResult}
    (h : p.relabelOfObject q o = .ok results)
    (h' : p.relabelOfObject { q with mode } o = .ok results') {x y : RelabelResult} (hx : x ∈ results)
    (hy : y ∈ results') (heq : x.subject = y.subject) : x = y := by
  obtain ⟨g, hg, -, -, hxg⟩ := (mem_relabelOfObject h).mp hx
  obtain ⟨g', hg', -, -, hyg⟩ := (mem_relabelOfObject h').mp hy
  rw [← heq] at hg' hyg
  obtain rfl := Option.some.inj (hg.symm.trans hg')
  exact hxg.trans hyg.symm

/-- What mode `both` gives is what the two one-way modes give together. -/
theorem mem_both_iff {toResults fromResults bothResults : List RelabelResult}
    (hto : p.relabelOfObject { q with mode := .toStart } o = .ok toResults)
    (hfrom : p.relabelOfObject { q with mode := .fromStart } o = .ok fromResults)
    (hboth : p.relabelOfObject { q with mode := .both } o = .ok bothResults) {x : RelabelResult} :
    x ∈ bothResults ↔ x ∈ toResults ∨ x ∈ fromResults := by
  have hmem {mode : RelabelMode} {results' : List RelabelResult}
      (h' : p.relabelOfObject { q with mode } o = .ok results') :
      x ∈ results' ↔ ∃ g, (p.relabelGrants q.classes .object o).get? x.subject = some g ∧
        q.Admits p x.subject ∧ g.admits mode = true ∧ x = g.result x.subject :=
    mem_relabelOfObject h'
  have hsplit (g : PairGrants) : g.admits .both = true ↔
      g.admits .toStart = true ∨ g.admits .fromStart = true := by
    simp [PairGrants.admits]
  rw [hmem hto, hmem hfrom, hmem hboth]
  simp only [hsplit, or_and_right, and_or_left, exists_or]

/-- **Relabelling of an object type is exact, and the modes agree.** -/
theorem objectModes_exact (hmode : q.mode ≠ .subject) (h : p.analyzeRelabel q = .ok results) :
    ∃ o, p.resolve q.start = some o ∧
      results.Pairwise (fun x y => compare x.subject y.subject = .lt) ∧
      (∀ s, (∃ x ∈ results, x.subject = s) ↔
        q.Admits p s ∧ ∃ w, q.mode.asks w = true ∧ p.CanRelabel q.classes w s o) ∧
      (∀ x ∈ results, x.Groups p q.classes o) ∧
      (∀ mode ≠ RelabelMode.subject, ∃ results', p.analyzeRelabel { q with mode } = .ok results' ∧
        ∀ x ∈ results, ∀ y ∈ results', x.subject = y.subject → x = y) ∧
      ∃ toResults fromResults bothResults,
        p.analyzeRelabel { q with mode := .toStart } = .ok toResults ∧
        p.analyzeRelabel { q with mode := .fromStart } = .ok fromResults ∧
        p.analyzeRelabel { q with mode := .both } = .ok bothResults ∧
        ∀ x, x ∈ bothResults ↔ x ∈ toResults ∨ x ∈ fromResults := by
  obtain ⟨o, ho, h⟩ := (analyzeRelabel_eq_ok_iff hmode).mp h
  have hother {mode : RelabelMode} {results' : List RelabelResult} (hne : mode ≠ .subject)
      (h' : p.relabelOfObject { q with mode } o = .ok results') :
      p.analyzeRelabel { q with mode } = .ok results' :=
    (analyzeRelabel_eq_ok_iff hne).mpr ⟨o, ho, h'⟩
  refine ⟨o, ho, ascending_relabelOfObject h, exists_result_iff h, fun x => groups_of_mem h,
    fun mode hne => ?_, ?_⟩
  · obtain ⟨results', h'⟩ := exists_relabelOfObject h mode
    exact ⟨results', hother hne h', fun x hx y hy => eq_of_subject_eq h h' hx hy⟩
  · obtain ⟨toResults, hto⟩ := exists_relabelOfObject h .toStart
    obtain ⟨fromResults, hfrom⟩ := exists_relabelOfObject h .fromStart
    obtain ⟨bothResults, hboth⟩ := exists_relabelOfObject h .both
    exact ⟨toResults, fromResults, bothResults, hother (nomatch ·) hto, hother (nomatch ·) hfrom,
      hother (nomatch ·) hboth, fun x => mem_both_iff hto hfrom hboth⟩

/-- A policy in which `a` relabels objects of type `o` both ways, and `b` only from it. -/
def sampleRelabel : Policy :=
  let p := (((Policy.empty.addType "a").addType "b").addType "o").addType "u"
  let p := (p.addAccessRule .allow "a" "o" "file" ["relabelto"] none).2
  let p := (p.addAccessRule .allow "a" "o" "file" ["relabelfrom"] none).2
  let p := (p.addAccessRule .allow "b" "o" "dir" ["relabelfrom"] none).2
  (p.addAccessRule .allow "a" "u" "file" ["relabelto"] none).2

/-- What the subjects of `Policy.sampleRelabel` can do with objects of type `o`, asked in mode `from`. -/
theorem sample_object_results :
    let q : RelabelQuery := { mode := .fromStart, start := "o" }
    let results : List RelabelResult := [⟨[], [], [⟨0⟩, ⟨1⟩], ⟨"a"⟩⟩, ⟨[], [⟨2⟩], [], ⟨"b"⟩⟩]
    q.mode ≠ .subject ∧ sampleRelabel.analyzeRelabel q = .ok results ∧
      (∀ s, (∃ x ∈ results, x.subject = s) ↔ q.Admits sampleRelabel s ∧
        ∃ w, q.mode.asks w = true ∧ sampleRelabel.CanRelabel q.classes w s ⟨"o"⟩) ∧
      ∀ x ∈ results, x.Groups sampleRelabel q.classes ⟨"o"⟩ := by
  intro q results
  have hmode : q.mode ≠ .subject := by decide
  have hok : sampleRelabel.analyzeRelabel q = .ok results := by decide +kernel
  have hstart : sampleRelabel.resolve q.start = some ⟨"o"⟩ := by decide +kernel
  obtain ⟨o, ho, -, hreported, hgroups, -⟩ := objectModes_exact hmode hok
  obtain rfl := Option.some.inj (hstart.symm.trans ho)
  exact ⟨hmode, hok, hreported, hgroups⟩

end Policy

end PolicyReach
