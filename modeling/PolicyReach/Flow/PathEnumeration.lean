import PolicyReach.Flow.ShortestPath
import PolicyReach.AnalysisError

/-!
# Paths in order of weight

All simple paths between two types can be taken one by one, the lightest first. The state between
two takings holds the paths taken and a queue of candidates in order: lighter ones first, of
equally light ones those with fewer types, then by the names on them.

When a path is taken, its deviations are queued: for each type on it but the last, the lightest way
to go on from there to the end that leaves it by another hop than every path taken with the same
beginning, and does not come back to that beginning. Taking fails, and changes nothing, if it would
make the queue longer than its limit.
-/

namespace PolicyReach

/-- The order of walks by the names on them. -/
def compareWalks : List TypeName → List TypeName → Ordering
  | [], [] => .eq
  | [], _ :: _ => .lt
  | _ :: _, [] => .gt
  | a :: as, b :: bs => (compare a b).then (compareWalks as bs)

/-- A path that may be taken. -/
structure Candidate where
  weight : UInt32
  walk : List TypeName
  deriving DecidableEq

namespace Candidate

/-- The order in which candidates are taken. -/
def order (a b : Candidate) : Ordering :=
  (compare a.weight b.weight).then
    ((compare a.walk.length b.walk.length).then (compareWalks a.walk b.walk))

/-- A queue with a candidate put at its place. -/
def enqueue (c : Candidate) : List Candidate → List Candidate
  | [] => [c]
  | d :: ds => if (c.order d).isLT then c :: d :: ds else d :: enqueue c ds

end Candidate

/-- The paths taken and the paths to take. -/
structure PathEnumeration where
  start : TypeName
  finish : TypeName
  orientation : Orientation
  /-- The paths taken, in order. -/
  returned : List (List TypeName) := []
  /-- Every path that has ever been queued. -/
  seen : List (List TypeName) := []
  /-- The candidates, in order. -/
  queue : List Candidate := []
  /-- The most candidates the queue may hold. -/
  limit : Nat
  deriving DecidableEq

namespace PathEnumeration

/-- The number of candidates. -/
def pending (e : PathEnumeration) : Nat := e.queue.length

/-- Queue a candidate. -/
def push (e : PathEnumeration) (c : Candidate) : PathEnumeration :=
  { e with seen := c.walk :: e.seen, queue := c.enqueue e.queue }

/-- The lightest way from a type to the end that avoids some types and hops. -/
def spur? (e : PathEnumeration) (g : FlowGraph) (source : TypeName) (types : List TypeName)
    (hops : List (TypeName × TypeName)) : Option (List TypeName) :=
  let q : Search :=
    { graph := g, orientation := e.orientation, source, target := some e.finish,
      excludedTypes := types, excludedHops := hops }
  q.run.walkTo? e.finish

/-- A walk with its weight. -/
def candidate? (e : PathEnumeration) (g : FlowGraph) (walk : List TypeName) : Option Candidate :=
  (g.walkWeight? e.orientation walk).map fun weight => { weight, walk }

/-- An enumeration of the paths from `start` to `finish`, its queue holding the lightest one. -/
def prepare (g : FlowGraph) (start finish : TypeName) (orientation : Orientation) (limit : Nat) :
    PathEnumeration :=
  let e : PathEnumeration := { start, finish, orientation, limit }
  match (e.spur? g start [] []).bind (e.candidate? g) with
  | some c => e.push c
  | none => e

/-- The hop that a path makes after the beginning `root`, if it has this beginning. -/
def hopAfter? (root path : List TypeName) : Option (TypeName × TypeName) :=
  if path.take root.length = root then
    match root.getLast?, path[root.length]? with
    | some a, some b => some (a, b)
    | _, _ => none
  else none

/-- The deviation from a path after its first `i + 1` types. -/
def deviation? (e : PathEnumeration) (g : FlowGraph) (path : List TypeName) (i : Nat) :
    Option Candidate := do
  let source ← path[i]?
  let root := path.take (i + 1)
  let before := path.take i
  let hops := (e.returned ++ [path]).filterMap (hopAfter? root)
  let spur ← e.spur? g source before hops
  let walk := before ++ spur
  if e.seen.contains walk then none else e.candidate? g walk

/-- The deviations from a path that have never been queued. -/
def deviations (e : PathEnumeration) (g : FlowGraph) (path : List TypeName) : List Candidate :=
  ((List.range (path.length - 1)).filterMap (e.deviation? g path)).foldl
    (fun found c => if found.contains c then found else found ++ [c]) []

/-- Take the next path; there is none when the queue is empty. -/
def next (e : PathEnumeration) (g : FlowGraph) :
    Except AnalysisError (Option (Candidate × PathEnumeration)) :=
  match e.queue with
  | [] => .ok none
  | best :: rest =>
    let found := e.deviations g best.walk
    let queued := rest.length + found.length
    if e.limit < queued then
      .error (.allocation (.candidates e.start e.finish queued e.limit))
    else
      let taken := { e with returned := e.returned ++ [best.walk], queue := rest }
      .ok (some (best, found.foldl push taken))

end PathEnumeration

end PolicyReach
