import Mathlib.Algebra.Group.Action.Defs
import Mathlib.Algebra.Order.BigOperators.Group.List
import Mathlib.Algebra.Order.Ring.Nat
import PolicyReach.Proofs.Fallible
import PolicyReach.Proofs.Flow.PathEnumeration

/-!
# No sum of weights overflows

Weights are added up in three places: along the hops that a search offers, the tentative ones included;
along a walk that becomes a candidate; and over the steps of a flow. The first sum would stay at the
greatest word, the other two would wrap around.

Model: in `Checked` everything that adds up weights does so by `Checked.add`, which gives an `Overflow`
instead of a sum that is no word. Whatever overflows on the way stops the whole.

Results:
* **`Checked.run_eq`**: over a measured graph no sum of a search overflows, whatever it excludes;
* `Checked.walkWeight_eq`, `Checked.walkResult_eq`: nor does the sum along a walk without repeats;
* **`Checked.results_eq`**: nor do those for the results that a graph gives;
* **`Checked.prepare_eq`**, **`Checked.next_eq`**: nor do those of an enumeration of paths;
* `Grown.exact_reachResults`: the lengths reported are exact, and at most ten times the number of steps.
-/

namespace PolicyReach

/-- Two words whose sum is no word. -/
structure Overflow where
  left : UInt32
  right : UInt32

namespace Checked

/-! ## Sums -/

/-- The sum, if it is a word. -/
def add (a b : UInt32) : Except Overflow UInt32 :=
  if a.toNat + b.toNat < UInt32.size then .ok (a + b) else .error ⟨a, b⟩

/-- The sum of a list. -/
def sum (ws : List UInt32) : Except Overflow UInt32 := ws.foldlM add 0

variable {a b c : UInt32}

theorem add_eq (h : a.toNat + b.toNat < UInt32.size) : add a b = .ok (a + b) := if_pos h

/-- A sum that is a word is not cut off either. -/
theorem add_eq_saturatingAdd (h : a.toNat + b.toNat < UInt32.size) :
    add a b = .ok (saturatingAdd a b) := by
  unfold saturatingAdd
  rw [if_pos h, add_eq h]

theorem foldlM_add_eq_ok_iff :
    ∀ {ws : List UInt32} {w : UInt32},
      ws.foldlM add w = .ok c ↔ c.toNat = w.toNat + (ws.map UInt32.toNat).sum
  | [], w => by
    have hbase : (Except.ok w : Except Overflow UInt32) = .ok c ↔ w = c :=
      ⟨Except.ok.inj, congrArg Except.ok⟩
    rw [List.map_nil, List.sum_nil, Nat.add_zero, UInt32.toNat_inj, eq_comm (a := c)]
    exact hbase
  | x :: ws, w => by
    rw [List.foldlM_cons, List.map_cons, List.sum_cons, ← Nat.add_assoc]
    by_cases hfits : w.toNat + x.toNat < UInt32.size
    · rw [add_eq hfits, ← FlowGraph.toNat_add_eq hfits]
      exact foldlM_add_eq_ok_iff
    · have hword := c.toNat_lt_size
      unfold add
      rw [if_neg hfits]
      refine ⟨(nomatch ·), fun h => ?_⟩
      omega

/-- **Words are added up to the word that is their sum**, and to nothing if none is. -/
theorem sum_eq_ok_iff {ws : List UInt32} :
    sum ws = .ok c ↔ c.toNat = (ws.map UInt32.toNat).sum := by
  have hzero : (0 : UInt32).toNat = 0 := rfl
  unfold sum
  rw [foldlM_add_eq_ok_iff, hzero, Nat.zero_add]

theorem sum_eq {ws : List UInt32} (h : (ws.map UInt32.toNat).sum < UInt32.size) :
    sum ws = .ok (ws.foldl (· + ·) 0) := by
  have hzero : (0 : UInt32).toNat = 0 := rfl
  rw [sum_eq_ok_iff, FlowGraph.toNat_foldl_add] <;> rw [hzero, Nat.zero_add]
  exact h

/-! ## Searches -/

section Search

variable (q : Search)

/-- Offer one neighbour of `t` a walk over `t`. -/
def visit (t : TypeName) (cost : UInt32) (s : Reached) (hop : TypeName × Edge) :
    Except Overflow Reached :=
  if q.mayHop s t hop.1 then do
    let total ← add cost hop.2.weight
    .ok (s.offer hop.1 t total)
  else .ok s

/-- Offer every neighbour of `t` a walk over `t`. -/
def offerAll (s : Reached) (t : TypeName) (cost : UInt32) : Except Overflow Reached :=
  (q.graph.neighbors q.orientation t).foldlM (visit q t cost) s

/-- Settle types until none is left or the target is settled. -/
def settleAll : (fuel : Nat) → Reached → Except Overflow Reached
  | 0, s => .ok s
  | fuel + 1, s =>
    match s.lightest? with
    | none => .ok s
    | some (t, cost) =>
      let s := s.settle t cost
      if q.target = some t then .ok s
      else if q.expands t then do
        let s ← offerAll q s t cost
        settleAll fuel s
      else settleAll fuel s

/-- Run the search. -/
def run : Except Overflow Reached := do
  let s ← settleAll q (q.graph.nodeCount + 1) (Reached.reach {} q.source 0)
  .ok (if q.target.isSome then s.settledOnly else s)

variable {q} {s : Reached} {t : TypeName} {cost : UInt32}

theorem visit_eq (hm : q.graph.Measured) {pending : List (TypeName × TypeName)}
    {hop : TypeName × Edge} (h : q.Explored ((t, hop.1) :: pending) s) (ht : q.Expanding t cost s)
    (harc : q.graph.arc? q.orientation t hop.1 = some hop.2) :
    visit q t cost s hop = .ok (q.visit t cost s hop) := by
  unfold visit Search.visit
  by_cases hmay : q.mayHop s t hop.1 = true
  · obtain ⟨hnew, hentered, hmade⟩ := Search.mayHop_iff.mp hmay
    have hfits := h.sum_fits hm ht.settled ⟨harc, hentered, hmade, ht.expands, ht.goesOn⟩ hnew
    rw [if_pos hmay, if_pos hmay, add_eq_saturatingAdd hfits]
    rfl
  · rw [if_neg hmay, if_neg hmay]

theorem visitAll_eq (hm : q.graph.Measured) :
    ∀ {hops : List (TypeName × Edge)} {s : Reached},
      (∀ hop ∈ hops, q.graph.arc? q.orientation t hop.1 = some hop.2) →
      q.Explored (hops.map fun hop => (t, hop.1)) s → q.Expanding t cost s →
      hops.foldlM (visit q t cost) s = .ok (hops.foldl (q.visit t cost) s)
  | [], _, _, _, _ => rfl
  | hop :: hops, s, harcs, h, ht => by
    have harc := harcs hop List.mem_cons_self
    obtain ⟨h', ht'⟩ := h.visit hm ht harc
    rw [List.foldlM_cons, visit_eq hm h ht harc]
    exact visitAll_eq hm (fun x hx => harcs x (List.mem_cons_of_mem hop hx)) h' ht'

theorem offerAll_eq (hm : q.graph.Measured) (h : q.Explored (q.hopsFrom t) s)
    (ht : q.Expanding t cost s) : offerAll q s t cost = .ok (q.offerAll s t cost) :=
  visitAll_eq hm (fun _ hhop => FlowGraph.mem_neighbors.mp hhop) h ht

theorem settleAll_eq (hm : q.graph.Measured) :
    ∀ {fuel : Nat} {s : Reached}, q.Explored [] s → settleAll q fuel s = .ok (q.settleAll fuel s)
  | 0, _, _ => rfl
  | fuel + 1, s, h => by
    unfold settleAll Search.settleAll
    cases hlightest : s.lightest? with
    | none => rfl
    | some w =>
      obtain ⟨t, cost⟩ := w
      dsimp only
      by_cases htarget : q.target = some t
      · rw [if_pos htarget, if_pos htarget]
      · have hnext := h.settleOne hm hlightest
        unfold Search.settleOne at hnext
        rw [if_neg htarget] at hnext ⊢
        rw [if_neg htarget]
        by_cases hexp : q.expands t = true
        · rw [if_pos hexp] at hnext ⊢
          rw [if_pos hexp, offerAll_eq hm (h.settle hlightest) (h.expanding hlightest hexp htarget)]
          exact settleAll_eq hm hnext
        · rw [if_neg hexp] at hnext ⊢
          rw [if_neg hexp]
          exact settleAll_eq hm hnext

/-- **No sum of a search overflows.** -/
theorem run_eq (hm : q.graph.Measured) : run q = .ok q.run := by
  unfold run
  rw [settleAll_eq hm (Search.explored_start q)]
  rfl

end Search

/-! ## Walks -/

/-- The weight of a walk; none if a hop has no edge. -/
def walkWeight (g : FlowGraph) (o : Orientation) (walk : List TypeName) :
    Except Overflow (Option UInt32) :=
  match (FlowGraph.hops walk).mapM fun h => (g.orientedEdge? o h.1 h.2).map Edge.weight with
  | none => .ok none
  | some weights => (sum weights).map some

/-- A flow along a path. -/
def ofPath (direction : FlowDirection) (start finish : TypeName) (steps : List FlowStep) :
    Except Overflow FlowResult := do
  let length ← sum (steps.map FlowStep.weight)
  .ok { direction, start, finish, length, steps }

/-- The flow along a walk from `start`. -/
def walkResult (g : FlowGraph) (o : Orientation) (direction : FlowDirection) (start : TypeName)
    (walk : List TypeName) : Except Overflow (Option FlowResult) :=
  match walk.getLast?, g.walkEdges? o walk with
  | some finish, some edges =>
    (ofPath direction start finish (edges.map FlowStep.ofEdge)).map some
  | _, _ => .ok none

section Walks

variable {g : FlowGraph} {o : Orientation} {l : List TypeName} {direction : FlowDirection}
  {start finish : TypeName}

theorem walkWeight_eq (hg : g.Sound) (hm : g.Measured) (hw : g.Walks o l) (hn : l.Nodup) :
    walkWeight g o l = .ok (g.walkWeight? o l) := by
  obtain ⟨ws, hws, hsum⟩ := hw.exists_weights hg
  unfold walkWeight FlowGraph.walkWeight?
  rw [hws]
  dsimp only
  rw [sum_eq (hsum ▸ hm.fits hw hn)]
  rfl

theorem ofPath_eq {steps : List FlowStep}
    (h : (steps.map fun s => s.weight.toNat).sum < UInt32.size) :
    ofPath direction start finish steps = .ok (.ofPath direction start finish steps) := by
  unfold ofPath FlowResult.ofPath
  rw [sum_eq (by rwa [List.map_map])]
  rfl

/-- The flow along a walk whose length is the sum of its steps' weights. -/
theorem walkResult_eq {r : FlowResult} (hr : g.walkResult? o direction start l = some r)
    (hsum : r.length.toNat = (r.steps.map fun s => s.weight.toNat).sum) :
    walkResult g o direction start l = .ok (some r) := by
  obtain ⟨finish, es, hlast, hes, rfl⟩ := FlowGraph.walkResult?_eq_some hr
  unfold walkResult
  rw [hlast, hes]
  dsimp only
  rw [ofPath_eq (hsum ▸ UInt32.toNat_lt_size _)]
  rfl

end Walks

/-! ## Results -/

section Results

variable (g : FlowGraph) (p : Policy) (f : Option NameFilter)

/-- A flow of one hop. -/
def hopResult (start : TypeName) (direction : FlowDirection) (finish : TypeName) (e : Edge) :
    Except Overflow FlowResult :=
  ofPath direction start finish [.ofEdge e]

/-- The flows between `start` and `finish`, each direction apart. -/
def apart (start finish : TypeName) (inward outward : Option Edge) :
    Except Overflow (List FlowResult) := do
  let inward ← inward.toList.mapM (hopResult start .inward finish)
  let outward ← outward.toList.mapM (hopResult start .outward finish)
  .ok (inward ++ outward)

/-- The flows between `start` and `finish`, both directions in one result, which takes no sum. -/
def together (start finish : TypeName) (inward outward : Option Edge) :
    Except Overflow (List FlowResult) :=
  match inward, outward with
  | some i, some o => .ok (FlowGraph.together start finish (some i) (some o))
  | _, _ => apart start finish inward outward

/-- The one-hop flows at `start`. -/
def hopResults (direction : FlowDirection) (start : TypeName) : Except Overflow (List FlowResult) := do
  let inward : Fan :=
    if direction.wantsInward then g.filteredFan p f .backward start else ∅
  let outward : Fan :=
    if direction.wantsOutward then g.filteredFan p f .forward start else ∅
  let report := if direction = .either then together start else apart start
  let results ← (inward.keys.union outward.keys).toList.mapM fun finish =>
    report finish (inward.get? finish) (outward.get? finish)
  .ok results.flatten

/-- The lightest flows between `start` and every type that a walk from it reaches. -/
def reachResults (direction : ReachDirection) (start : TypeName) :
    Except Overflow (List FlowResult) := do
  let o := direction.orientation
  let found ← run { graph := g, orientation := o, source := start }
  (found.dist.keyList.filter fun t => t != start && NameFilter.passes f p t).filterMapM fun t =>
    match found.walkTo? t with
    | none => .ok none
    | some walk => walkResult g o direction.flowDirection start walk

/-- The results that a graph gives for a start type. -/
def results (kind : FlowKind) (start : TypeName) : Except Overflow (List FlowResult) :=
  match kind with
  | .hop direction => hopResults g p f direction start
  | .reach direction => reachResults g p f direction start

variable {g p f} {start finish : TypeName} {direction : FlowDirection}

theorem hopResult_eq (e : Edge) :
    hopResult start direction finish e = .ok (FlowGraph.hopResult start direction finish e) :=
  ofPath_eq (e.weight.toNat_lt_size)

theorem apart_eq (inward outward : Option Edge) :
    apart start finish inward outward = .ok (FlowGraph.apart start finish inward outward) := by
  unfold apart
  rw [mapM_eq_ok fun e _ => hopResult_eq e, mapM_eq_ok fun e _ => hopResult_eq e]
  cases inward <;> cases outward <;> rfl

theorem together_eq (inward outward : Option Edge) :
    together start finish inward outward = .ok (FlowGraph.together start finish inward outward) := by
  cases inward with
  | none => exact apart_eq none outward
  | some i =>
    cases outward with
    | none => exact apart_eq (some i) none
    | some o => rfl

theorem hopResults_eq : hopResults g p f direction start = .ok (g.hopResults p f direction start) := by
  unfold hopResults FlowGraph.hopResults
  dsimp only
  have hreport (finish : TypeName) (inward outward : Option Edge) :
      (if direction = .either then together start else apart start) finish inward outward =
        .ok ((if direction = .either then FlowGraph.together start else FlowGraph.apart start)
          finish inward outward) := by
    split
    · exact together_eq inward outward
    · exact apart_eq inward outward
  rw [mapM_eq_ok fun finish _ => hreport finish _ _, List.flatMap_def]
  rfl

theorem reachResults_eq (hg : g.Sound) (hm : g.Measured) {direction : ReachDirection} :
    reachResults g p f direction start = .ok (g.reachResults p f direction start) := by
  unfold reachResults FlowGraph.reachResults
  dsimp only
  rw [run_eq hm]
  refine filterMapM_eq_ok fun t ht => ?_
  cases hl : ({ graph := g, orientation := direction.orientation, source := start } :
      Search).run.walkTo? t with
  | none => rfl
  | some l =>
    obtain ⟨hroute, hn, -⟩ := (FlowGraph.walkTo?_searchFrom hg hm).1 hl
    have hne : t ≠ start := by
      have hkeep := (List.mem_filter.mp ht).2
      rw [Bool.and_eq_true, bne_iff_ne] at hkeep
      exact hkeep.1
    obtain ⟨r, hr, halong, -⟩ := hroute.walks.walkResult?_along hg hm hroute.head hroute.last hn
      (hroute.two_le_length hne) direction.flowDirection
    dsimp only [Option.bind_some]
    rw [hr]
    exact walkResult_eq hr halong.sum

/-- **No sum for the results of a graph overflows.** -/
theorem results_eq (hg : g.Sound) (hm : g.Measured) (kind : FlowKind) :
    results g p f kind start = .ok (g.results p f kind start) := by
  cases kind with
  | hop direction => exact hopResults_eq
  | reach direction => exact reachResults_eq hg hm

end Results

/-! ## Enumerations of paths -/

/-- What stops an operation that adds up weights: an overflow, or an error of its own. -/
inductive Stop where
  | overflow (sum : Overflow)
  | failed (e : AnalysisError)

section Enumerations

variable {α : Type}

/-- An operation that takes no sum. -/
def plain (x : Except AnalysisError α) : Except Stop α := x.mapError .failed

/-- An operation that does nothing but take sums. -/
def summed (x : Except Overflow α) : Except Stop α := x.mapError .overflow

variable (e : PathEnumeration) (g : FlowGraph)

/-- The lightest way from a type to the end that avoids some types and hops. -/
def spur (source : TypeName) (types : List TypeName) (hops : List (TypeName × TypeName)) :
    Except Overflow (Option (List TypeName)) := do
  let found ← run (g.spurSearch e.orientation e.finish types source hops)
  .ok (found.walkTo? e.finish)

/-- A walk with its weight. -/
def candidate (walk : List TypeName) : Except Overflow (Option Candidate) := do
  let weight ← walkWeight g e.orientation walk
  .ok (weight.map fun weight => { weight, walk })

/-- An enumeration of the paths from `start` to `finish`, its queue holding the lightest one. -/
def prepare (start finish : TypeName) (orientation : Orientation) (limit : Nat) :
    Except Overflow PathEnumeration := do
  let e : PathEnumeration := .blank start finish orientation limit
  match ← spur e g start [] [] with
  | none => .ok e
  | some walk =>
    match ← candidate e g walk with
    | none => .ok e
    | some c => .ok (e.push c)

/-- The deviation from a path after its first `i + 1` types. -/
def deviation (path : List TypeName) (i : Nat) : Except Overflow (Option Candidate) :=
  match path[i]? with
  | none => .ok none
  | some source => do
    let root := path.take (i + 1)
    let before := path.take i
    let hops := (e.returned ++ [path]).filterMap (PathEnumeration.hopAfter? root)
    match ← spur e g source before hops with
    | none => .ok none
    | some spur =>
      let walk := before ++ spur
      if e.seen.contains walk then .ok none else candidate e g walk

/-- The deviations from a path that have never been queued. -/
def deviations (path : List TypeName) : Except Overflow (List Candidate) := do
  let found ← (List.range (path.length - 1)).filterMapM (deviation e g path)
  .ok (Candidate.distinct found [])

/-- Take the next path; there is none when the queue is empty. -/
def next : Except Stop (Option (Candidate × PathEnumeration)) :=
  match e.queue with
  | [] => .ok none
  | best :: rest => do
    let found ← summed (deviations e g best.walk)
    let queued := rest.length + found.length
    if e.limit < queued then
      .error (.failed (.allocation (.candidates e.start e.finish queued e.limit)))
    else
      let taken := { e with returned := e.returned ++ [best.walk], queue := rest }
      .ok (some (best, found.foldl PathEnumeration.push taken))

variable {e g} {index : FlowGraph} {path : List TypeName}

theorem spur_eq (hm : g.Measured) (source : TypeName) (types : List TypeName)
    (hops : List (TypeName × TypeName)) :
    spur e g source types hops = .ok (e.spur? g source types hops) := by
  unfold spur
  rw [run_eq (q := g.spurSearch e.orientation e.finish types source hops) hm]
  rfl

theorem candidate_eq (hc : e.Carries index g) (hpath : e.IsPath g path) :
    candidate e g path = .ok (e.candidate? g path) := by
  unfold candidate
  rw [walkWeight_eq hc.sound hc.measured hpath.walks hpath.nodup]
  rfl

/-- **No sum overflows when an enumeration is prepared.** -/
theorem prepare_eq {start finish : TypeName} {o : Orientation} {limit : Nat}
    (hc : (PathEnumeration.blank start finish o limit).Carries index g) :
    prepare g start finish o limit = .ok (.prepare g start finish o limit) := by
  unfold prepare
  dsimp only
  rw [spur_eq hc.measured]
  rcases PathEnumeration.prepare_spur_cases hc with ⟨hspur, heq⟩ | ⟨c, hspur, heq, hweighed⟩
  · rw [heq, hspur]
    rfl
  · rw [heq, hspur]
    have hpath := hc.paths.mpr hweighed.path
    obtain ⟨c', hcand, hwalk, hweighed'⟩ := hc.exists_candidate? hweighed.path
    show (candidate (.blank start finish o limit) g c.walk >>= _) = _
    rw [candidate_eq hc hpath, hcand, hweighed'.eq hweighed hwalk]
    rfl

/-- The deviation from a path at a type on it: the lightest way to go on from there, unless the whole
has been queued. -/
theorem deviation_split (e : PathEnumeration) (g : FlowGraph) (before : List TypeName)
    (source : TypeName) (rest : List TypeName) :
    deviation e g (before ++ source :: rest) before.length = (do
      match ← spur e g source before (e.takenHops (before ++ source :: rest) before source) with
      | none => .ok none
      | some spur =>
        if e.seen.contains (before ++ spur) then .ok none else candidate e g (before ++ spur)) := by
  unfold deviation PathEnumeration.takenHops
  rw [PathEnumeration.getElem?_split, PathEnumeration.take_split, List.take_left]

theorem deviation_eq (hc : e.Carries index g) (hpath : e.IsPath index path) {i : Nat}
    (hi : i < path.length - 1) : deviation e g path i = .ok (e.deviation? g path i) := by
  obtain ⟨before, source, y, rest, rfl, rfl⟩ := PathEnumeration.exists_split hi
  obtain ⟨hfound, -⟩ := (hc.paths.mpr hpath).stem.walkTo? hc.sound hc.measured
    (e.takenHops (before ++ source :: y :: rest) before source)
  rw [deviation_split, spur_eq hc.measured, PathEnumeration.deviation?_eq]
  cases hspur : e.spur? g source before
      (e.takenHops (before ++ source :: y :: rest) before source) with
  | none => rfl
  | some l =>
    obtain ⟨m, rfl, hp, -⟩ := hfound hspur
    show (if e.seen.contains (before ++ source :: m) then _ else _) =
      Except.ok (if e.seen.contains (before ++ source :: m) then _ else _)
    by_cases hseen : e.seen.contains (before ++ source :: m) = true
    · rw [if_pos hseen, if_pos hseen]
    · rw [if_neg hseen, if_neg hseen]
      exact candidate_eq hc hp

theorem deviations_eq (hc : e.Carries index g) (hpath : e.IsPath index path) :
    deviations e g path = .ok (e.deviations g path) := by
  unfold deviations
  rw [filterMapM_eq_ok fun i hi => deviation_eq hc hpath (List.mem_range.mp hi)]
  rfl

/-- **No sum overflows when a path is taken**, in an enumeration whose candidates are for paths. -/
theorem next_eq (hc : e.Carries index g) (ht : e.Tracks index) : next e g = plain (e.next g) := by
  unfold next PathEnumeration.next
  cases hq : e.queue with
  | nil => rfl
  | cons best rest =>
    have hbest : e.IsPath index best.walk := by
      refine ht.paths _ (List.mem_append_right _ ?_)
      rw [hq]
      exact List.mem_cons_self
    dsimp only
    rw [deviations_eq hc hbest]
    show (if e.limit < rest.length + (e.deviations g best.walk).length then _ else _) =
      plain (if e.limit < rest.length + (e.deviations g best.walk).length then _ else _)
    split <;> rfl

end Enumerations

end Checked

/-! ## Lengths -/

/-- The length is the sum of the weights of the steps, as numbers without bound, and at most ten times the
number of steps. -/
structure FlowResult.Exact (r : FlowResult) : Prop where
  sum : r.length.toNat = (r.steps.map fun s => s.weight.toNat).sum
  bound : r.length.toNat ≤ 10 * r.steps.length

namespace FlowGraph

variable {index g : FlowGraph} {o : Orientation} {walk : List TypeName} {r : FlowResult}

/-- The flow along a walk of an index has an exact length, since the weights of the index are in range. -/
theorem Index.exact (hi : index.Index) (h : r.Along index o walk) : r.Exact where
  sum := h.sum
  bound := by
    have hweights : ∀ w ∈ r.steps.map fun s => s.weight.toNat, w ≤ 10 := by
      intro w hw
      obtain ⟨s, hs, rfl⟩ := List.mem_map.mp hw
      obtain ⟨e, he, rfl⟩ := h.edges s hs
      have harc := (hi.sound.arc_eq_edge? .forward e.source e.target).trans he
      exact (hi.inRange harc).2
    have hle := List.sum_le_card_nsmul _ 10 hweights
    rw [List.length_map, smul_eq_mul, Nat.mul_comm] at hle
    rw [h.sum]
    exact hle

/-- **The flows over many hops that a grown graph gives have exact lengths.** -/
theorem Grown.exact_reachResults {limit : Nat} {p : Policy} {f : Option NameFilter}
    {direction : ReachDirection} {start : TypeName} (hi : index.Index) (hg : Grown limit index g)
    (hlimit : limit ≤ edgeBound) (hr : r ∈ g.reachResults p f direction start) : r.Exact := by
  obtain ⟨-, -, walk, hroute, -, halong, -⟩ :=
    (reachResults_exact hg.sound (hg.measured hi hlimit) p f direction start).lightest r hr
  exact hi.exact (hg.along hi hroute.walks halong)

end FlowGraph

end PolicyReach
