import PolicyReach.Proofs.Flow.HopModes
import PolicyReach.Proofs.Session.Continuation

/-!
# Analyses of one-hop flows in the four modes

Whether a query is asked afresh or of a session whose graph has been grown from other types too, its
results are those of the index that its criteria are scanned into (`AnswersHops.results_eq`). So the
results in the four modes agree (`hop_modes_agree`), each mode on a graph of its own.
-/

namespace PolicyReach

/-- What a query for one-hop flows is scanned for. -/
def HopQuery.criteria (q : HopQuery) : Criteria :=
  { classPerms := q.classPerms, scope := .direct, intermediate := none }

namespace FlowContext

/-- The results answer a query: an analysis gives them, or a session that serves the query does when it is
continued from the start type. -/
inductive AnswersHops (c : FlowContext) (q : HopQuery) (results : List FlowResult) : Prop
  | analyzed {r r' : FlowRegistry} {h : Handle} (ok : c.analyzeHops r q = .ok ((results, h), r'))
  | continued {r r' : FlowRegistry} {h : Handle} {v : FlowSession}
      (session : Registry.resolve r h = .ok v) (serves : v.Serves c (.hops q))
      (ok : c.continueFrom r h q.start = .ok (results, r'))

variable {c : FlowContext} {q : HopQuery} {m : PermissionMap} {start : TypeName}

/-- **Answers are the results of the index.** -/
theorem AnswersHops.results_eq {results : List FlowResult} (ha : c.AnswersHops q results)
    (hm : c.permissions = some m) (hstart : c.policy.resolve q.start = some start) :
    results = (c.policy.flows m q.criteria).hopResults c.policy q.filter q.direction start := by
  have hi : (c.policy.flows m q.criteria).Sound := c.policy.flows_sound m q.criteria
  have hscope : (c.policy.flows m q.criteria).criteria.scope = .direct := by
    rw [Policy.flows_criteria]
    rfl
  cases ha with
  | analyzed ok =>
    obtain ⟨m', start', hm', hstart', hbegin⟩ := analyzeHops_eq_ok ok
    obtain rfl := Option.some.inj (hm.symm.trans hm')
    obtain rfl := Option.some.inj (hstart.symm.trans hstart')
    obtain ⟨graph, hgraph, rfl, -⟩ := begin_eq_ok hbegin
    obtain ⟨hgrown, hroot, -⟩ := FlowGraph.grow_grown hi (FlowGraph.grown_empty _ _) hgraph
    exact hgrown.hopResults_eq hi hscope hroot _ _ _
  | continued session serves ok =>
    obtain ⟨v, start', graph, hv, hstart', hgrow, rfl, -⟩ := continueFrom_eq_ok ok
    obtain rfl := Except.ok.inj (session.symm.trans hv)
    obtain rfl := Option.some.inj (hstart.symm.trans hstart')
    obtain ⟨m', criteria, hm', hcriteria, hindex⟩ := serves.index
    obtain rfl := Option.some.inj (hm.symm.trans hm')
    obtain rfl : q.criteria = criteria := Except.ok.inj hcriteria
    obtain ⟨hgrown, hroot, -⟩ := FlowGraph.grow_grown serves.sound serves.grown hgrow
    rw [serves.kind, serves.filter, ← hindex]
    exact serves.results_eq hgrown hroot

/-- **The results in the four modes agree**, where the query is answered in all of them; and without a
filter on results, flows into its start type from another are flows out of that into the start type. -/
theorem hop_modes_agree {results : FlowDirection → List FlowResult} (hm : c.permissions = some m)
    (hstart : c.policy.resolve q.start = some start)
    (ha : ∀ direction, c.AnswersHops { q with direction } (results direction)) :
    (c.policy.flows m q.criteria).HopModes (fun t => NameFilter.passes q.filter c.policy t = true)
      start results ∧
    (q.filter = none → ∀ name other found, c.policy.resolve name = some other →
      c.AnswersHops { q with direction := .outward, start := name } found →
      ∀ length rules,
        (∃ r ∈ results .inward, r.finish = other ∧ r.length = length ∧ r.rules = rules) ↔
          ∃ r ∈ found, r.finish = start ∧ r.length = length ∧ r.rules = rules) := by
  have hi : (c.policy.flows m q.criteria).Sound := c.policy.flows_sound m q.criteria
  have hresults : results = fun direction =>
      (c.policy.flows m q.criteria).hopResults c.policy q.filter direction start :=
    funext fun direction => (ha direction).results_eq hm hstart
  constructor
  · rw [hresults]
    exact hi.hopModes c.policy q.filter start
  · intro hfilter name other found hother hfound length rules
    have hfound := hfound.results_eq hm hother
    rw [hresults, hfound, hfilter]
    exact hi.hop_mirror c.policy start other length rules

/-- An analysis that computes to a list answers the query with it. -/
theorem AnswersHops.of_any (q : HopQuery) (results : List FlowResult)
    (h : (c.analyzeHops .empty q).toOption.any (fun x => decide (x.1.1 = results)) = true) :
    c.AnswersHops q results := by
  obtain ⟨x, hok, heq⟩ := exists_ok_of_any h
  exact of_decide_eq_true heq ▸ .analyzed hok

/-- Two types that write to each other, `a` with the lighter permission, and a log that only `a` writes to. -/
def sampleExchange : Policy :=
  let p := ((Policy.empty.addType "a").addType "b").addType "log"
  let p := (p.addAccessRule .allow "a" "b" "file" ["write"] none).2
  let p := (p.addAccessRule .allow "b" "a" "file" ["append"] none).2
  (p.addAccessRule .allow "a" "log" "file" ["write"] none).2

/-- The results at `a` in the four modes, where the filter leaves the log out. -/
def sampleExchanged (direction : FlowDirection) : List FlowResult :=
  let into : FlowResult := ⟨.inward, ⟨"a"⟩, ⟨"b"⟩, 9, [⟨⟨"b"⟩, ⟨"a"⟩, 9, [⟨1⟩]⟩]⟩
  let out : FlowResult := ⟨.outward, ⟨"a"⟩, ⟨"b"⟩, 2, [⟨⟨"a"⟩, ⟨"b"⟩, 2, [⟨0⟩]⟩]⟩
  match direction with
  | .inward => [into]
  | .outward => [out]
  | .both => [into, out]
  | .either => [⟨.both, ⟨"a"⟩, ⟨"b"⟩, 2, into.steps ++ out.steps⟩]

/-- The one-hop flows of `sampleExchange` at `a`: a result in each direction, and one for the two together
when they are folded. Without the filter the flow into `a` from `b` is the one that leads out of `b`. -/
theorem sample_hop_modes :
    let c : FlowContext := ⟨sampleExchange, some .sample, {}⟩
    let q : HopQuery := { direction := .both, start := "a", filter := some ⟨"b", .char 'b'⟩ }
    let back : FlowResult := ⟨.outward, ⟨"b"⟩, ⟨"a"⟩, 9, [⟨⟨"b"⟩, ⟨"a"⟩, 9, [⟨1⟩]⟩]⟩
    ((∀ direction, c.AnswersHops { q with direction } (sampleExchanged direction)) ∧
      (c.policy.flows .sample q.criteria).HopModes
        (fun t => NameFilter.passes q.filter c.policy t = true) ⟨"a"⟩ sampleExchanged) ∧
    c.AnswersHops { direction := .outward, start := "b" } [back] ∧
    ∃ bare : FlowDirection → List FlowResult,
      (∀ direction, c.AnswersHops { direction, start := "a" } (bare direction)) ∧
      ∀ length rules,
        (∃ r ∈ bare .inward, r.finish = ⟨"b"⟩ ∧ r.length = length ∧ r.rules = rules) ↔
          ∃ r ∈ [back], r.finish = ⟨"a"⟩ ∧ r.length = length ∧ r.rules = rules := by
  intro c q back
  have hfiltered (direction : FlowDirection) :
      c.AnswersHops { q with direction } (sampleExchanged direction) :=
    .of_any _ _ (by cases direction <;> decide +kernel)
  have hback : c.AnswersHops { direction := .outward, start := "b" } [back] :=
    .of_any _ _ (by decide +kernel)
  have hbare (direction : FlowDirection) : ∃ l, c.AnswersHops { direction, start := "a" } l := by
    have hok : (c.analyzeHops .empty { direction, start := "a" }).isOk = true := by
      cases direction <;> decide +kernel
    obtain ⟨x, hx⟩ := exists_ok hok
    exact ⟨x.1.1, .analyzed hx⟩
  choose bare hbare using hbare
  have hstart : c.policy.resolve "a" = some ⟨"a"⟩ := by decide +kernel
  refine ⟨⟨hfiltered, (hop_modes_agree rfl hstart hfiltered).1⟩, hback, bare, hbare, ?_⟩
  exact (hop_modes_agree (q := { direction := .both, start := "a" }) rfl hstart hbare).2 rfl "b" ⟨"b"⟩ _
    (by decide +kernel) hback

end FlowContext

end PolicyReach
