import PolicyReach.DomainTransition
import PolicyReach.Proofs.Grants

/-!
# A search for domain transitions without its memo

A search looks up the same grants many times, and keeps them in a memo. What it finds does not depend on
that memo.

* `TransitionDirection.near`, `TransitionDirection.far`: the end of a transition that a search starts at,
  and the end that it finds;
* `Policy.transitions`: what a search finds, as a function of the policy and the query alone;
* `LookupPlan`: a computation that asks for grants and goes on by what they are. It is run with any way of
  looking up; **`LookupPlan.run_value`**: where lookups are right, it gives its value, whatever is kept
  between lookups;
* `Policy.searchPlan`: a search as such a computation (`GrantMemo.analyze_eq_run`);
* **`GrantMemo.analyze_eq`**: a search finds what it should, whatever memo it begins with.
-/

namespace PolicyReach

namespace TransitionDirection

/-- The end of a transition that a search starts at; given the start and the domain found, the source. -/
def near : TransitionDirection → TypeName → TypeName → TypeName
  | .forward, s, _ => s
  | .reverse, _, t => t

/-- The end of a transition that a search finds; given the start and the domain found, the target. -/
def far : TransitionDirection → TypeName → TypeName → TypeName
  | .forward, _, t => t
  | .reverse, s, _ => s

end TransitionDirection

namespace Policy

/-- The objects on which `subject` holds a permission. -/
def held (p : Policy) (subject : TypeName) (cls perm : String) : Grants :=
  p.grants ⟨.subject, subject, cls, perm⟩

/-- What one domain executes and another is entered through, with the rules. -/
def roles (p : Policy) (executing entered : TypeName) : List (TypeName × EntryRules) :=
  EntryRules.ofRoles (p.held executing "file" "execute") (p.held entered "file" "entrypoint")

/-- The entrypoints between two domains with their rules. -/
def entryRules (p : Policy) (source target : TypeName) : OrdMap TypeName EntryRules :=
  EntryRules.mergeAll (p.roles source target ++ p.roles target source)

/-- The transition from one domain to another through an entrypoint. -/
def transitionThrough (p : Policy) (source target : TypeName) (transition access : OrdSet RuleId)
    (entrypoint : TypeName) (rules : EntryRules) : DomainTransition :=
  { source, target, entrypoint
    transitionRules := transition.toList
    entrypointRules := rules.entrypoint.toList
    executeRules := rules.execute.toList
    setexecRules := ((p.held source "process" "setexec").rules source).toList
    labelRules := p.transitionLabels source entrypoint target
    accessRules := access.toList }

/-- The transitions from one domain to another. -/
def pairTransitions (p : Policy) (source target : TypeName) (transition access : OrdSet RuleId) :
    List DomainTransition :=
  (p.entryRules source target).entries.map fun e =>
    p.transitionThrough source target transition access e.1 e.2

/-- The rules of a domain that meet the access filter, if there is one. -/
def rulesMeeting (p : Policy) (access : Option AccessFilter) (domain : TypeName) : OrdSet RuleId :=
  match access with
  | none => ∅
  | some f => f.rules p domain

/-- The transitions between `start` and a domain found. -/
def foundTransitions (p : Policy) (q : TransitionQuery) (access : Option AccessFilter)
    (start found : TypeName) (transition : OrdSet RuleId) : List DomainTransition :=
  if start = found ∨ NameFilter.passes q.filter p found = false then []
  else if access.isSome && (p.rulesMeeting access found).isEmpty then []
  else
    p.pairTransitions (q.direction.near start found) (q.direction.far start found) transition
      (p.rulesMeeting access found)

/-- The transitions between `start` and all domains found. -/
def transitionsAt (p : Policy) (q : TransitionQuery) (access : Option AccessFilter)
    (start : TypeName) : List DomainTransition :=
  (p.grants ⟨GrantMemo.startSide q.direction, start, "process", "transition"⟩).entries.flatMap fun e =>
    p.foundTransitions q access start e.1 e.2

/-- What a query for domain transitions gives. -/
def transitions (p : Policy) (q : TransitionQuery) :
    Except AnalysisError (List DomainTransition) :=
  match p.resolve q.start with
  | none => .error (.unknownType q.start)
  | some start => (AccessFilter.ofQuery p q).map fun access => p.transitionsAt q access start

end Policy

/-! ## Computations that look up grants -/

/-- A computation that asks for grants, one key after another, and goes on by what they are. -/
inductive LookupPlan (α : Type) where
  | done (a : α)
  | ask (key : GrantKey) (next : Grants → LookupPlan α)

namespace LookupPlan

variable {α β σ τ : Type} {grants : GrantKey → Grants}

/-- One computation after another. -/
def bind : LookupPlan α → (α → LookupPlan β) → LookupPlan β
  | .done a, f => f a
  | .ask key next, f => .ask key fun g => (next g).bind f

/-- The computation, its grants looked up in some way that may keep a state. -/
def run (lookup : GrantKey → StateM σ Grants) : LookupPlan α → StateM σ α
  | .done a => pure a
  | .ask key next => lookup key >>= fun g => (next g).run lookup

/-- What it computes from the grants. -/
def value (grants : GrantKey → Grants) : LookupPlan α → α
  | .done a => a
  | .ask key next => (next (grants key)).value grants

/-- The states that a run of it passes through, from the first to the last. -/
def states (lookup : GrantKey → StateM σ Grants) : LookupPlan α → σ → List σ
  | .done _, m => [m]
  | .ask key next, m => m :: (next (lookup key m).1).states lookup (lookup key m).2

theorem run_bind (lookup : GrantKey → StateM σ Grants) (x : LookupPlan α) (f : α → LookupPlan β) :
    (x.bind f).run lookup = x.run lookup >>= fun a => (f a).run lookup := by
  induction x with
  | done a => rfl
  | ask key next ih =>
    funext m
    exact congrFun (ih (lookup key m).1) (lookup key m).2

theorem value_bind (x : LookupPlan α) (f : α → LookupPlan β) :
    (x.bind f).value grants = (f (x.value grants)).value grants := by
  induction x with
  | done a => rfl
  | ask key next ih => exact ih (grants key)

/-- **Where lookups are right, the computation gives its value.** The lookups need to be right only in
states with some property that they keep. -/
theorem run_value {lookup : GrantKey → StateM σ Grants} {P : σ → Prop}
    (hlookup : ∀ key m, P m → (lookup key m).1 = grants key ∧ P (lookup key m).2) (x : LookupPlan α) :
    ∀ m, P m → ((x.run lookup).run m).1 = x.value grants := by
  induction x with
  | done a => exact fun m _ => rfl
  | ask key next ih =>
    intro m hm
    obtain ⟨hvalue, hnext⟩ := hlookup key m hm
    have hrun : ((ask key next).run lookup).run m =
        ((next (lookup key m).1).run lookup).run (lookup key m).2 := rfl
    rw [hrun, hvalue]
    exact ih (grants key) _ hnext

/-- What every lookup keeps holds of all states that a run passes through. -/
theorem of_mem_states {lookup : GrantKey → StateM σ Grants} {P : σ → Prop}
    (hlookup : ∀ key m, P m → P (lookup key m).2) (x : LookupPlan α) :
    ∀ m, P m → ∀ m' ∈ x.states lookup m, P m' := by
  induction x with
  | done a => exact fun m hm m' hm' => List.mem_singleton.mp hm' ▸ hm
  | ask key next ih =>
    intro m hm m' hm'
    rcases List.mem_cons.mp hm' with rfl | hm'
    · exact hm
    · exact ih _ _ (hlookup key m hm) m' hm'

/-- A run ends in one of the states that it passes through. -/
theorem run_mem_states (lookup : GrantKey → StateM σ Grants) (x : LookupPlan α) :
    ∀ m, ((x.run lookup).run m).2 ∈ x.states lookup m := by
  induction x with
  | done a => exact fun m => List.mem_singleton_self m
  | ask key next ih => exact fun m => List.mem_cons_of_mem m (ih _ _)

/-- Where a state stands for another one in every lookup, it does in the whole computation. -/
theorem run_simulates {lookup : GrantKey → StateM σ Grants} {lookup' : GrantKey → StateM τ Grants}
    {f : σ → τ} (hlookup : ∀ key m, lookup' key (f m) = ((lookup key m).1, f (lookup key m).2))
    (x : LookupPlan α) :
    ∀ m, (x.run lookup').run (f m) = (((x.run lookup).run m).1, f ((x.run lookup).run m).2) := by
  induction x with
  | done a => exact fun m => rfl
  | ask key next ih =>
    intro m
    have hrun : ((ask key next).run lookup').run (f m) =
        ((next (lookup' key (f m)).1).run lookup').run (lookup' key (f m)).2 := rfl
    rw [hrun, hlookup]
    exact ih (lookup key m).1 (lookup key m).2

end LookupPlan

/-! ## A search as such a computation -/

namespace Policy

/-- The transitions from one domain to another. -/
def pairPlan (p : Policy) (source target : TypeName) (transition access : OrdSet RuleId) :
    LookupPlan (List DomainTransition) :=
  .ask ⟨.subject, source, "file", "execute"⟩ fun sourceExecutes =>
  .ask ⟨.subject, target, "file", "execute"⟩ fun targetExecutes =>
  .ask ⟨.subject, source, "file", "entrypoint"⟩ fun sourceEnters =>
  .ask ⟨.subject, target, "file", "entrypoint"⟩ fun targetEnters =>
  .ask ⟨.subject, source, "process", "setexec"⟩ fun setexecs =>
  .done ((EntryRules.mergeAll
      (EntryRules.ofRoles sourceExecutes targetEnters
        ++ EntryRules.ofRoles targetExecutes sourceEnters)).entries.map fun e =>
    { source, target, entrypoint := e.1
      transitionRules := transition.toList
      entrypointRules := e.2.entrypoint.toList
      executeRules := e.2.execute.toList
      setexecRules := (setexecs.rules source).toList
      labelRules := p.transitionLabels source e.1 target
      accessRules := access.toList })

/-- The transitions between `start` and a domain found. -/
def foundPlan (p : Policy) (q : TransitionQuery) (access : Option AccessFilter)
    (start found : TypeName) (transition : OrdSet RuleId) : LookupPlan (List DomainTransition) :=
  if start = found ∨ NameFilter.passes q.filter p found = false then .done []
  else if access.isSome && (p.rulesMeeting access found).isEmpty then .done []
  else
    p.pairPlan (q.direction.near start found) (q.direction.far start found) transition
      (p.rulesMeeting access found)

/-- The transitions between `start` and every domain found. -/
def allPlan (p : Policy) (q : TransitionQuery) (access : Option AccessFilter) (start : TypeName) :
    List (TypeName × OrdSet RuleId) → LookupPlan (List DomainTransition)
  | [] => .done []
  | (found, transition) :: rest =>
    (p.foundPlan q access start found transition).bind fun here =>
      (p.allPlan q access start rest).bind fun there => .done (here ++ there)

/-- A search for domain transitions. -/
def searchPlan (p : Policy) (q : TransitionQuery) :
    LookupPlan (Except AnalysisError (List DomainTransition)) :=
  match p.resolve q.start with
  | none => .done (.error (.unknownType q.start))
  | some start =>
    match AccessFilter.ofQuery p q with
    | .error e => .done (.error e)
    | .ok access =>
      .ask ⟨GrantMemo.startSide q.direction, start, "process", "transition"⟩ fun pairs =>
        (p.allPlan q access start pairs.entries).bind fun results => .done (.ok results)

variable {p : Policy}

theorem value_foundPlan (q : TransitionQuery) (access : Option AccessFilter)
    (start found : TypeName) (transition : OrdSet RuleId) :
    (p.foundPlan q access start found transition).value p.grants =
      p.foundTransitions q access start found transition := by
  unfold foundPlan foundTransitions
  split
  · rfl
  · split <;> rfl

theorem value_allPlan (q : TransitionQuery) (access : Option AccessFilter) (start : TypeName) :
    ∀ l : List (TypeName × OrdSet RuleId), (p.allPlan q access start l).value p.grants =
      l.flatMap fun e => p.foundTransitions q access start e.1 e.2
  | [] => rfl
  | (found, transition) :: rest => by
    rw [allPlan, LookupPlan.value_bind, LookupPlan.value_bind, value_foundPlan, value_allPlan]
    rfl

theorem value_searchPlan (p : Policy) (q : TransitionQuery) :
    (p.searchPlan q).value p.grants = p.transitions q := by
  unfold searchPlan transitions
  cases p.resolve q.start with
  | none => rfl
  | some start =>
    cases AccessFilter.ofQuery p q with
    | error e => rfl
    | ok access =>
      dsimp only [LookupPlan.value]
      rw [LookupPlan.value_bind, value_allPlan]
      rfl

end Policy

namespace GrantMemo

variable {p : Policy}

theorem run_foundPlan (q : TransitionQuery) (access : Option AccessFilter) (start found : TypeName)
    (transition : OrdSet RuleId) :
    (p.foundPlan q access start found transition).run (fun key m => GrantMemo.lookup m p key) =
      foundTransitions p q access start found transition := by
  unfold Policy.foundPlan foundTransitions
  split
  · rfl
  · by_cases hnone : (access.isSome && (p.rulesMeeting access found).isEmpty) = true
    · rw [if_pos hnone]
      exact (if_pos hnone).symm
    · rw [if_neg hnone]
      refine Eq.trans ?_ (if_neg hnone).symm
      cases q.direction with
      | forward => rfl
      | reverse => rfl

theorem run_allPlan (q : TransitionQuery) (access : Option AccessFilter) (start : TypeName) :
    ∀ l : List (TypeName × OrdSet RuleId),
      (p.allPlan q access start l).run (fun key m => GrantMemo.lookup m p key) =
        allTransitions p q access start l
  | [] => rfl
  | (found, transition) :: rest => by
    rw [Policy.allPlan, LookupPlan.run_bind, run_foundPlan]
    refine congrArg (foundTransitions p q access start found transition >>= ·) (funext fun here => ?_)
    rw [LookupPlan.run_bind, run_allPlan q access start rest]
    rfl

/-- A search is the computation of `Policy.searchPlan`, begun with a memo that keeps nothing. -/
theorem analyze_eq_run (m : GrantMemo) (p : Policy) (q : TransitionQuery) :
    m.analyze p q =
      ((p.searchPlan q).run fun key m => GrantMemo.lookup m p key).run m.cleared := by
  unfold analyze Policy.searchPlan
  cases p.resolve q.start with
  | none => rfl
  | some start =>
    cases AccessFilter.ofQuery p q with
    | error e => rfl
    | ok access =>
      -- after the first lookup the domains found are gone through, one after another
      let first := m.cleared.lookup p ⟨startSide q.direction, start, "process", "transition"⟩
      have hall : (((p.allPlan q access start first.1.entries).bind fun results =>
            .done (Except.ok results : Except AnalysisError (List DomainTransition))).run
              fun key m => GrantMemo.lookup m p key) =
          allTransitions p q access start first.1.entries >>= fun results => pure (.ok results) := by
        rw [LookupPlan.run_bind, run_allPlan]
        rfl
      exact (congrFun hall first.2).symm

/-- **What a search finds does not depend on the memo.** -/
theorem analyze_eq (m : GrantMemo) (p : Policy) (q : TransitionQuery) :
    (m.analyze p q).1 = p.transitions q := by
  rw [analyze_eq_run, ← p.value_searchPlan q]
  exact LookupPlan.run_value (fun key m hm => Honest.lookup (p := p) (m := m) hm key) _ _
    (honest_cleared m p)

end GrantMemo

end PolicyReach
