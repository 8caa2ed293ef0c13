import PolicyReach.Proofs.DomainTransition.Exact

/-!
# Searches with a cache from elsewhere

The memo of a search keeps its grants in a cache that is somebody else's work. Here the cache is a
parameter, of which nothing is used but what is documented of it: it gives the value last put under a
key, if it still has one, and displaces entries to stay within its capacity. Which entries it displaces is
left open.

* `CacheOps`, `CacheOps.Lawful`: the operations of a cache, and what is documented of them;
  `RecencyCache.lawful_ops`: the cache of what was used last is one;
* `CachedMemo`: the memo over any such cache; `CachedMemo.lookup_honest`, `CachedMemo.lookup_sized`: what
  one lookup keeps, whatever is displaced;
* `GrantMemo.toCached_analyze`: over the cache of what was used last, a search is the search in use;
* **`CachedMemo.memo_invisible`**: what a search finds depends neither on the cache nor on anything done
  with it before, and the cache never holds more than it has room for.
-/

namespace PolicyReach

/-! ## Caches -/

/-- The operations of a cache of bounded size. -/
structure CacheOps (κ β : Type) where
  Cache : Type
  /-- A cache with nothing in it, and room for a number of entries. -/
  new : {n : Nat // 0 < n} → Cache
  /-- The value of a key, if there still is one, with the cache after this use. -/
  get : Cache → κ → Option β × Cache
  put : Cache → κ → β → Cache
  clear : Cache → Cache
  size : Cache → Nat
  capacity : Cache → Nat

namespace CacheOps

variable {κ β : Type} [DecidableEq κ]

/-- The cache has this value for a key. -/
def Holds (C : CacheOps κ β) (c : C.Cache) (k : κ) (v : β) : Prop := (C.get c k).1 = some v

/-- What is documented of a cache. A value that it has for a key is the one last put there, and it
displaces entries to stay within its capacity. -/
structure Lawful (C : CacheOps κ β) : Prop where
  not_holds_new : ∀ n k v, ¬ C.Holds (C.new n) k v
  not_holds_clear : ∀ c k v, ¬ C.Holds (C.clear c) k v
  holds_of_get : ∀ c k j w, C.Holds (C.get c k).2 j w → C.Holds c j w
  holds_of_put : ∀ c k v j w, C.Holds (C.put c k v) j w → if j = k then w = v else C.Holds c j w
  capacity_new : ∀ n, C.capacity (C.new n) = n.val
  capacity_clear : ∀ c, C.capacity (C.clear c) = C.capacity c
  capacity_get : ∀ c k, C.capacity (C.get c k).2 = C.capacity c
  capacity_put : ∀ c k v, C.capacity (C.put c k v) = C.capacity c
  size_new : ∀ n, C.size (C.new n) = 0
  size_clear : ∀ c, C.size (C.clear c) = 0
  size_get : ∀ c k, C.size (C.get c k).2 ≤ C.size c
  size_put : ∀ c k v, C.size c ≤ C.capacity c → C.size (C.put c k v) ≤ C.capacity c

end CacheOps

namespace RecencyCache

variable {κ β : Type} [DecidableEq κ]

/-- The cache of what was used last, as a cache. -/
def ops (κ β : Type) [DecidableEq κ] : CacheOps κ β where
  Cache := RecencyCache κ β
  new n := { capacity := n.val }
  get c k := ((c.find? k).map Prod.fst, (c.find? k).elim c Prod.snd)
  put := put
  clear := cleared
  size := size
  capacity := capacity

theorem lookup_others_of_ne (c : RecencyCache κ β) {k j : κ} (hj : j ≠ k) :
    (c.others k).lookup j = c.entries.lookup j := by
  unfold others
  induction c.entries with
  | nil => rfl
  | cons e l ih =>
    obtain ⟨i, w⟩ := e
    by_cases hi : i = k
    · have hne : (j == i) = false := beq_eq_false_iff_ne.mpr fun h => hj (h.trans hi)
      rw [List.filter_cons_of_neg (by simp [hi]), ih, List.lookup_cons, hne]
    · rw [List.filter_cons_of_pos (by simpa using hi), List.lookup_cons, List.lookup_cons, ih]

theorem lookup_others (c : RecencyCache κ β) (k : κ) (v : β) (j : κ) :
    ((k, v) :: c.others k).lookup j = if j = k then some v else c.entries.lookup j := by
  by_cases hj : j = k
  · rw [hj, List.lookup_cons_self, if_pos rfl]
  · rw [List.lookup_cons, beq_eq_false_iff_ne.mpr hj, if_neg hj]
    exact c.lookup_others_of_ne hj

theorem length_others (c : RecencyCache κ β) {k : κ} {v : β} (h : c.entries.lookup k = some v) :
    (c.others k).length < c.entries.length := by
  obtain ⟨front, back, hentries, -⟩ := List.lookup_eq_some_iff.mp h
  refine List.length_filter_lt_length_iff_exists.mpr ⟨(k, v), ?_, by simp⟩
  rw [hentries]
  exact List.mem_append_right front List.mem_cons_self

/-- The cache has those values that are among its entries. -/
theorem holds_ops_iff {c : RecencyCache κ β} {k : κ} {v : β} :
    (ops κ β).Holds c k v ↔ c.entries.lookup k = some v := by
  have hget : ((ops κ β).get c k).1 = c.entries.lookup k := by
    show (c.find? k).map Prod.fst = c.entries.lookup k
    unfold find?
    cases c.entries.lookup k with
    | none => rfl
    | some v => rfl
  exact hget ▸ Iff.rfl

/-- A key that is found moves to the front, and that is all. -/
theorem get_ops (c : RecencyCache κ β) (k : κ) :
    ((ops κ β).get c k).2 = c ∨ ∃ v, c.entries.lookup k = some v ∧
      ((ops κ β).get c k).2 = { c with entries := (k, v) :: c.others k } := by
  show (c.find? k).elim c Prod.snd = c ∨ ∃ v, c.entries.lookup k = some v ∧
    (c.find? k).elim c Prod.snd = { c with entries := (k, v) :: c.others k }
  unfold find?
  cases c.entries.lookup k with
  | none => exact Or.inl rfl
  | some v => exact Or.inr ⟨v, rfl, rfl⟩

theorem holds_of_get {c : RecencyCache κ β} {k j : κ} {w : β}
    (h : (ops κ β).Holds ((ops κ β).get c k).2 j w) : (ops κ β).Holds c j w := by
  rcases get_ops c k with hc | ⟨v, hv, hc⟩
  · exact hc ▸ h
  · rw [hc, holds_ops_iff] at h
    have hfront := (lookup_others c k v j).symm.trans h
    rw [holds_ops_iff]
    split at hfront
    · rename_i hj
      rw [hj, hv, hfront]
    · exact hfront

theorem holds_of_put {c : RecencyCache κ β} {k j : κ} {v w : β}
    (h : (ops κ β).Holds (c.put k v) j w) : if j = k then w = v else (ops κ β).Holds c j w := by
  have hentry : (((k, v) :: c.others k).take c.capacity).lookup j = some w := holds_ops_iff.mp h
  -- what is found in front of those displaced is found in all of them
  have hall : ((k, v) :: c.others k).lookup j = some w := by
    rw [← List.take_append_drop c.capacity ((k, v) :: c.others k), List.lookup_append, hentry]
    rfl
  rw [lookup_others] at hall
  by_cases hj : j = k
  · rw [if_pos hj] at hall ⊢
    exact (Option.some.inj hall).symm
  · rw [if_neg hj] at hall ⊢
    exact holds_ops_iff.mpr hall

theorem capacity_get (c : RecencyCache κ β) (k : κ) :
    RecencyCache.capacity ((ops κ β).get c k).2 = c.capacity := by
  rcases get_ops c k with hc | ⟨v, -, hc⟩ <;> rw [hc]

theorem size_get (c : RecencyCache κ β) (k : κ) : size ((ops κ β).get c k).2 ≤ c.size := by
  rcases get_ops c k with hc | ⟨v, hv, hc⟩
  · rw [hc]
  · rw [hc]
    exact length_others c hv

theorem lawful_ops (κ β : Type) [DecidableEq κ] : (ops κ β).Lawful where
  not_holds_new _ _ _ h := nomatch holds_ops_iff.mp h
  not_holds_clear _ _ _ h := nomatch holds_ops_iff.mp h
  holds_of_get _ _ _ _ := holds_of_get
  holds_of_put _ _ _ _ _ := holds_of_put
  capacity_new _ := rfl
  capacity_clear _ := rfl
  capacity_get := capacity_get
  capacity_put _ _ _ := rfl
  size_new _ := rfl
  size_clear _ := rfl
  size_get := size_get
  size_put _ _ _ _ := List.length_take_le _ _

end RecencyCache

/-! ## Memos -/

/-- What has been looked up, kept in a cache if at all, and how often it was of use. -/
structure CachedMemo (C : CacheOps GrantKey Grants) where
  cache : Option C.Cache
  hits : Nat := 0
  misses : Nat := 0

/-- What an analyzer is used for: to search a policy, and to clear its memo. -/
inductive MemoUse where
  | search (p : Policy) (q : TransitionQuery)
  | clear

namespace CachedMemo

variable {C : CacheOps GrantKey Grants}

/-- The number of entries that a memo has room for: one at least. -/
def room (config : MemoConfig) : {n : Nat // 0 < n} :=
  ⟨max config.entries 1, Nat.le_max_right config.entries 1⟩

/-- A memo of a size. -/
def ofConfig (C : CacheOps GrantKey Grants) (config : MemoConfig) : CachedMemo C :=
  { cache := if config.enabled then some (C.new (room config)) else none }

/-- The memo with nothing kept and its counters at zero. -/
def cleared (m : CachedMemo C) : CachedMemo C := { cache := m.cache.map C.clear }

/-- Look up in the cache, else in the policy. -/
def lookup (m : CachedMemo C) (p : Policy) (k : GrantKey) : Grants × CachedMemo C :=
  match m.cache with
  | none => (p.grants k, { m with misses := m.misses + 1 })
  | some c =>
    let (found, c) := C.get c k
    match found with
    | some g => (g, { m with cache := some c, hits := m.hits + 1 })
    | none => (p.grants k, { m with cache := some (C.put c k (p.grants k)), misses := m.misses + 1 })

/-- Search for domain transitions, with the memo cleared first. -/
def analyze (m : CachedMemo C) (p : Policy) (q : TransitionQuery) :
    Except AnalysisError (List DomainTransition) × CachedMemo C :=
  ((p.searchPlan q).run fun k m => lookup m p k).run m.cleared

/-- The memos that a search passes through, lookup by lookup, once the memo is cleared. -/
def states (m : CachedMemo C) (p : Policy) (q : TransitionQuery) : List (CachedMemo C) :=
  (p.searchPlan q).states (fun k m => lookup m p k) m.cleared

/-- The memo after a use of it. -/
def use (m : CachedMemo C) : MemoUse → CachedMemo C
  | .search p q => (m.analyze p q).2
  | .clear => m.cleared

/-- The memo after a history of uses. -/
def after (m : CachedMemo C) (uses : List MemoUse) : CachedMemo C := uses.foldl use m

/-- All that the memo keeps are grants of the policy. -/
def Honest (m : CachedMemo C) (p : Policy) : Prop :=
  ∀ c, m.cache = some c → ∀ k g, C.Holds c k g → g = p.grants k

/-- The memo is as configured: it keeps something or not, and no more than it has room for. -/
structure Sized (config : MemoConfig) (m : CachedMemo C) : Prop where
  keeps : m.cache.isSome = config.enabled
  capacity : ∀ c, m.cache = some c → C.capacity c = max config.entries 1
  size : ∀ c, m.cache = some c → C.size c ≤ C.capacity c

variable {m : CachedMemo C} {p : Policy} {config : MemoConfig}

/-- A lookup either finds what the cache has, or puts there what the policy grants. -/
theorem lookup_cases (m : CachedMemo C) (p : Policy) (k : GrantKey) :
    (m.cache = none ∧ (m.lookup p k).1 = p.grants k ∧ (m.lookup p k).2.cache = none) ∨
      ∃ c, m.cache = some c ∧
        (C.Holds c k (m.lookup p k).1 ∧ (m.lookup p k).2.cache = some (C.get c k).2 ∨
          (m.lookup p k).1 = p.grants k ∧
            (m.lookup p k).2.cache = some (C.put (C.get c k).2 k (p.grants k))) := by
  unfold lookup
  cases hcache : m.cache with
  | none => exact Or.inl ⟨rfl, rfl, rfl⟩
  | some c =>
    refine Or.inr ⟨c, rfl, ?_⟩
    unfold CacheOps.Holds
    dsimp only
    cases (C.get c k).1 with
    | some g => exact Or.inl ⟨rfl, rfl⟩
    | none => exact Or.inr ⟨rfl, rfl⟩

theorem honest_cleared (hC : C.Lawful) (m : CachedMemo C) (p : Policy) : m.cleared.Honest p := by
  intro c hc k g hg
  obtain ⟨c', -, rfl⟩ := Option.map_eq_some_iff.mp hc
  exact absurd hg (hC.not_holds_clear c' k g)

/-- **What is looked up is what the policy grants**, and so is all that the memo keeps then. -/
theorem lookup_honest (hC : C.Lawful) (k : GrantKey) (m : CachedMemo C) (h : m.Honest p) :
    (m.lookup p k).1 = p.grants k ∧ (m.lookup p k).2.Honest p := by
  rcases lookup_cases m p k with ⟨-, hvalue, hnone⟩ | ⟨c, hc, ⟨hholds, hnext⟩ | ⟨hvalue, hnext⟩⟩
  · exact ⟨hvalue, fun c' hc' => nomatch hnone.symm.trans hc'⟩
  · refine ⟨h c hc k _ hholds, fun c' hc' j g hg => ?_⟩
    obtain rfl := Option.some.inj (hnext.symm.trans hc')
    exact h c hc j g (hC.holds_of_get c k j g hg)
  · refine ⟨hvalue, fun c' hc' j g hg => ?_⟩
    obtain rfl := Option.some.inj (hnext.symm.trans hc')
    have hput := hC.holds_of_put _ k _ j g hg
    split at hput
    · rename_i hj
      rw [hput, hj]
    · exact h c hc j g (hC.holds_of_get c k j g hput)

theorem sized_ofConfig (hC : C.Lawful) (config : MemoConfig) : (ofConfig C config).Sized config := by
  unfold ofConfig
  cases henabled : config.enabled with
  | false => exact ⟨henabled.symm, fun _ hc => (nomatch hc), fun _ hc => nomatch hc⟩
  | true =>
    refine ⟨henabled.symm, fun c hc => ?_, fun c hc => ?_⟩
    · obtain rfl := Option.some.inj hc
      exact hC.capacity_new _
    · obtain rfl := Option.some.inj hc
      rw [hC.size_new]
      exact Nat.zero_le _

theorem Sized.cleared (hC : C.Lawful) (h : m.Sized config) : m.cleared.Sized config where
  keeps := Option.isSome_map.trans h.keeps
  capacity c hc := by
    obtain ⟨c', hc', rfl⟩ := Option.map_eq_some_iff.mp hc
    rw [hC.capacity_clear]
    exact h.capacity c' hc'
  size c hc := by
    obtain ⟨c', -, rfl⟩ := Option.map_eq_some_iff.mp hc
    rw [hC.size_clear]
    exact Nat.zero_le _

theorem Sized.of_cache {m' : CachedMemo C} {c c' : C.Cache} (h : m.Sized config)
    (hc : m.cache = some c) (hc' : m'.cache = some c') (hcapacity : C.capacity c' = C.capacity c)
    (hsize : C.size c' ≤ C.capacity c') : m'.Sized config where
  keeps := by
    rw [← h.keeps, hc, hc']
    rfl
  capacity d hd := by
    obtain rfl := Option.some.inj (hc'.symm.trans hd)
    exact hcapacity.trans (h.capacity c hc)
  size d hd := by
    obtain rfl := Option.some.inj (hc'.symm.trans hd)
    exact hsize

/-- No lookup lets the memo grow beyond its room. -/
theorem lookup_sized (hC : C.Lawful) (k : GrantKey) (m : CachedMemo C) (h : m.Sized config) :
    (m.lookup p k).2.Sized config := by
  rcases lookup_cases m p k with ⟨hcache, -, hnone⟩ | ⟨c, hc, hnext⟩
  · refine ⟨?_, fun c' hc' => (nomatch hnone.symm.trans hc'), fun c' hc' => nomatch hnone.symm.trans hc'⟩
    rw [hnone, ← hcache]
    exact h.keeps
  · have hcapacity := hC.capacity_get c k
    have hsize : C.size (C.get c k).2 ≤ C.capacity (C.get c k).2 :=
      hcapacity ▸ (hC.size_get c k).trans (h.size c hc)
    rcases hnext with ⟨-, hnext⟩ | ⟨-, hnext⟩
    · exact h.of_cache hc hnext hcapacity hsize
    · have hput := hC.capacity_put (C.get c k).2 k (p.grants k)
      exact h.of_cache hc hnext (hput.trans hcapacity) (hput ▸ hC.size_put _ _ _ hsize)

/-- A search finds what it should, whatever the memo. -/
theorem analyze_eq (hC : C.Lawful) (m : CachedMemo C) (p : Policy) (q : TransitionQuery) :
    (m.analyze p q).1 = p.transitions q := by
  rw [← p.value_searchPlan q]
  exact LookupPlan.run_value (lookup_honest hC) _ _ (honest_cleared hC m p)

theorem states_sized (hC : C.Lawful) (h : m.Sized config) (p : Policy) (q : TransitionQuery) :
    ∀ m' ∈ m.states p q, m'.Sized config :=
  LookupPlan.of_mem_states (lookup_sized hC) _ _ (h.cleared hC)

theorem Sized.use (hC : C.Lawful) (h : m.Sized config) (u : MemoUse) : (m.use u).Sized config := by
  cases u with
  | search p q => exact states_sized hC h p q _ (LookupPlan.run_mem_states _ _ _)
  | clear => exact h.cleared hC

theorem Sized.after (hC : C.Lawful) (h : m.Sized config) (uses : List MemoUse) :
    (m.after uses).Sized config := by
  unfold CachedMemo.after
  induction uses generalizing m with
  | nil => exact h
  | cons u uses ih => exact ih (h.use hC u)

end CachedMemo

/-! ## The memo in use -/

namespace GrantMemo

variable {m : GrantMemo} {config : MemoConfig}

/-- A memo over the cache of what was used last. -/
def toCached (m : GrantMemo) : CachedMemo (RecencyCache.ops GrantKey Grants) :=
  { cache := m.cache, hits := m.hits, misses := m.misses }

/-- The memo after a use of it. -/
def use (m : GrantMemo) : MemoUse → GrantMemo
  | .search p q => (m.analyze p q).2
  | .clear => m.cleared

/-- The memo after a history of uses. -/
def after (m : GrantMemo) (uses : List MemoUse) : GrantMemo := uses.foldl use m

theorem toCached_ofConfig (config : MemoConfig) :
    (ofConfig config).toCached = CachedMemo.ofConfig _ config := by
  unfold ofConfig CachedMemo.ofConfig
  cases config.enabled with
  | false => rfl
  | true => rfl

theorem toCached_lookup (m : GrantMemo) (p : Policy) (k : GrantKey) :
    m.toCached.lookup p k = ((m.lookup p k).1, (m.lookup p k).2.toCached) := by
  obtain ⟨cache, hits, misses⟩ := m
  cases cache with
  | none => rfl
  | some c =>
    unfold CachedMemo.lookup GrantMemo.lookup toCached RecencyCache.ops
    dsimp only [Option.bind_some]
    cases c.find? k with
    | none => rfl
    | some x => rfl

/-- Over the cache of what was used last, a search is the search in use. -/
theorem toCached_analyze (m : GrantMemo) (p : Policy) (q : TransitionQuery) :
    m.toCached.analyze p q = ((m.analyze p q).1, (m.analyze p q).2.toCached) := by
  rw [analyze_eq_run]
  have hlookup (key : GrantKey) (m : GrantMemo) := toCached_lookup m p key
  exact LookupPlan.run_simulates (f := toCached) hlookup (p.searchPlan q) m.cleared

theorem toCached_after (uses : List MemoUse) : (m.after uses).toCached = m.toCached.after uses := by
  unfold GrantMemo.after CachedMemo.after
  induction uses generalizing m with
  | nil => rfl
  | cons u uses ih =>
    have huse : m.toCached.use u = (m.use u).toCached := by
      cases u with
      | search p q => exact congrArg Prod.snd (m.toCached_analyze p q)
      | clear => rfl
    rw [List.foldl_cons, List.foldl_cons, huse]
    exact ih

/-- The statistics tell of a memo as configured. -/
theorem stats_of_sized (h : m.toCached.Sized config) {stats : MemoStats} (hs : m.stats? = some stats) :
    stats.capacity = max config.entries 1 ∧ stats.size ≤ stats.capacity := by
  obtain ⟨c, hc, rfl⟩ := Option.map_eq_some_iff.mp hs
  exact ⟨h.capacity c hc, h.size c hc⟩

end GrantMemo

/-! ## The memo cannot be seen -/

namespace CachedMemo

variable {C : CacheOps GrantKey Grants}

/-- **The memo is invisible.** Whatever cache it has, how large it is and whatever it was used for before,
a search finds what it finds with no memo at all; and before, between and after its lookups the memo holds
no more than it has room for. The memo in use finds the same, and its statistics tell so. -/
theorem memo_invisible (hC : C.Lawful) (config : MemoConfig) (uses : List MemoUse) (p : Policy)
    (q : TransitionQuery) :
    let m := (ofConfig C config).after uses
    let g := (GrantMemo.ofConfig config).after uses
    (∀ entries before, (m.analyze p q).1 =
        (((ofConfig C { entries, enabled := false }).after before).analyze p q).1) ∧
      (∀ m' ∈ m :: m.states p q, m'.Sized config) ∧
      (g.analyze p q).1 = (m.analyze p q).1 ∧
      ∀ stats, g.stats? = some stats →
        stats.capacity = max config.entries 1 ∧ stats.size ≤ stats.capacity := by
  intro m g
  have hsized : m.Sized config := (sized_ofConfig hC config).after hC uses
  refine ⟨fun entries before => ?_, fun m' hm' => ?_, ?_, fun stats hstats => ?_⟩
  · rw [analyze_eq hC, analyze_eq hC]
  · rcases List.mem_cons.mp hm' with rfl | hm'
    · exact hsized
    · exact states_sized hC hsized p q m' hm'
  · rw [analyze_eq hC, g.analyze_eq]
  · have hops := RecencyCache.lawful_ops GrantKey Grants
    refine GrantMemo.stats_of_sized ?_ hstats
    rw [GrantMemo.toCached_after, GrantMemo.toCached_ofConfig]
    exact (sized_ofConfig hops config).after hops uses

/-- With room for one entry, after a search that failed and one of another policy, a search finds the
transition of `Policy.sampleDomains`. -/
theorem sample_memo_invisible :
    let C := RecencyCache.ops GrantKey Grants
    let q : TransitionQuery := { direction := .forward, start := "a" }
    let uses : List MemoUse :=
      [.search .sampleDomains { q with start := "ghost" }, .search .sample q, .clear]
    let m := (ofConfig C { entries := 0 }).after uses
    let g := (GrantMemo.ofConfig { entries := 0 }).after uses
    C.Lawful ∧ (m.analyze .sampleDomains q).1 = .ok [.sample] ∧
      (∀ entries before, (m.analyze .sampleDomains q).1 =
        (((ofConfig C { entries, enabled := false }).after before).analyze .sampleDomains q).1) ∧
      (∀ m' ∈ m :: m.states .sampleDomains q, m'.Sized { entries := 0 }) ∧
      (g.analyze .sampleDomains q).1 = (m.analyze .sampleDomains q).1 ∧
      ∀ stats, g.stats? = some stats → stats.capacity = 1 ∧ stats.size ≤ stats.capacity := by
  intro C q uses m g
  have hC : C.Lawful := RecencyCache.lawful_ops GrantKey Grants
  exact ⟨hC, by decide +kernel, memo_invisible hC _ _ _ _⟩

end CachedMemo

end PolicyReach
