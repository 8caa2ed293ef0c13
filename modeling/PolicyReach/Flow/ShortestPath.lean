import PolicyReach.Flow.Graph

/-!
# Lightest walks

A search settles types one by one, always the lightest unsettled one that has been reached, the
least by name among equally light ones: the frontier holds the reached and unsettled types in this
order. A settled type that walks may pass through offers a walk to each neighbour; an offer is taken
if it is lighter than what the neighbour has, or equally light and from a predecessor of a lesser
name. Weights are added up to the greatest word and no further.

Types and hops may be excluded: an excluded type is never entered, an excluded hop, named by its two
ends in walk order, is never made. A search with a target ends when that is settled, and forgets
what it has not settled.
-/

namespace PolicyReach

/-- The sum, or the greatest word if the sum is beyond it. -/
def saturatingAdd (a b : UInt32) : UInt32 :=
  if a.toNat + b.toNat < UInt32.size then a + b else 0xffffffff

/-- What to search, and where from. -/
structure Search where
  graph : FlowGraph
  orientation : Orientation
  source : TypeName
  /-- The types that a walk may pass through; the source is always gone on from. -/
  passable : TypeName → Bool := graph.criteria.isPassable
  /-- The type at whose settling the search ends. -/
  target : Option TypeName := none
  excludedTypes : List TypeName := []
  excludedHops : List (TypeName × TypeName) := []

/-- What a search has found: weights of reached types, and the types before them. -/
structure Reached where
  dist : OrdMap TypeName UInt32 := ∅
  prev : OrdMap TypeName TypeName := ∅
  settled : OrdSet TypeName := ∅
  /-- The types that are reached and not settled, each after its weight. -/
  frontier : OrdSet (KeyPair UInt32 TypeName) := ∅

namespace Reached

/-- The lightest unsettled type that has been reached, the least among equally light ones. -/
def lightest? (s : Reached) : Option (TypeName × UInt32) :=
  s.frontier.least?.map fun w => (w.second, w.first)

/-- Settle `t`, whose weight is `cost`. -/
def settle (s : Reached) (t : TypeName) (cost : UInt32) : Reached :=
  { s with settled := s.settled.insert t, frontier := s.frontier.erase ⟨cost, t⟩ }

/-- Give an unsettled type the weight `cost`, in place of any that it has. -/
def reach (s : Reached) (t : TypeName) (cost : UInt32) : Reached :=
  let others := match s.dist.get? t with
    | some d => s.frontier.erase ⟨d, t⟩
    | none => s.frontier
  { s with dist := s.dist.insert t cost, frontier := others.insert ⟨cost, t⟩ }

/-- Is a walk of weight `cost` over `via` better than what `t` has? -/
def isBetter (s : Reached) (t via : TypeName) (cost : UInt32) : Bool :=
  match s.dist.get? t with
  | none => true
  | some d =>
    cost < d || (cost == d && (s.prev.get? t).any fun p => (compare via p).isLT)

/-- Offer an unsettled type a walk of weight `cost` over `via`. -/
def offer (s : Reached) (t via : TypeName) (cost : UInt32) : Reached :=
  if s.isBetter t via cost then
    { s.reach t cost with prev := s.prev.insert t via }
  else s

/-- What is left when all that is not settled is forgotten. -/
def settledOnly (s : Reached) : Reached where
  dist := s.dist.filter fun t _ => s.settled.contains t
  prev := s.prev.filter fun t _ => s.settled.contains t
  settled := s.settled

/-- The types before `t` on the walk to it, and what follows: `walk` begins with `t`. -/
def walkBack (s : Reached) : (fuel : Nat) → (t : TypeName) → (walk : List TypeName) → List TypeName
  | 0, _, walk => walk
  | fuel + 1, t, walk =>
    match s.prev.get? t with
    | none => walk
    | some p => walkBack s fuel p (p :: walk)

/-- The walk to `t`, from the source on. Each step back is to another type that has one before it. -/
def walkTo? (s : Reached) (t : TypeName) : Option (List TypeName) :=
  if s.dist.contains t then some (s.walkBack s.prev.size t [t]) else none

end Reached

namespace Search

/-- May the search hop from `t` to `next`? -/
def mayHop (q : Search) (s : Reached) (t next : TypeName) : Bool :=
  !s.settled.contains next && !q.excludedTypes.contains next
    && !q.excludedHops.contains (t, next)

/-- Offer every neighbour of `t` a walk over `t`, whose own weight is `cost`. -/
def offerAll (q : Search) (s : Reached) (t : TypeName) (cost : UInt32) : Reached :=
  (q.graph.neighbors q.orientation t).foldl
    (fun s hop =>
      if q.mayHop s t hop.1 then s.offer hop.1 t (saturatingAdd cost hop.2.weight) else s)
    s

/-- Does the search go on from a settled type? -/
def expands (q : Search) (t : TypeName) : Bool :=
  t == q.source || q.passable t

/-- Settle types until none is left or the target is settled. -/
def settleAll (q : Search) : (fuel : Nat) → Reached → Reached
  | 0, s => s
  | fuel + 1, s =>
    match s.lightest? with
    | none => s
    | some (t, cost) =>
      let s := s.settle t cost
      if q.target = some t then s
      else settleAll q fuel (if q.expands t then q.offerAll s t cost else s)

/-- Run the search. Each step settles a node or the source, and no type twice. -/
def run (q : Search) : Reached :=
  let s := q.settleAll (q.graph.nodeCount + 1) (Reached.reach {} q.source 0)
  if q.target.isSome then s.settledOnly else s

end Search

namespace FlowGraph

/-- The hops of a walk, each with its two ends. -/
def hops (walk : List TypeName) : List (TypeName × TypeName) := walk.zip walk.tail

/-- The edges of a walk in the order in which information moves; none if a hop has no edge. -/
def walkEdges? (g : FlowGraph) (o : Orientation) (walk : List TypeName) : Option (List Edge) :=
  let flow := match o with
    | .forward => walk
    | .backward => walk.reverse
  (hops flow).mapM fun h => g.edge? h.1 h.2

/-- The weight of a walk; none if a hop has no edge. -/
def walkWeight? (g : FlowGraph) (o : Orientation) (walk : List TypeName) : Option UInt32 :=
  ((hops walk).mapM fun h => (g.orientedEdge? o h.1 h.2).map Edge.weight).map
    fun weights => weights.foldl (· + ·) 0

end FlowGraph

end PolicyReach
