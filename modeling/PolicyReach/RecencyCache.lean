/-!
# Caches of what was used last

A cache holds a bounded number of entries in the order of their last use. Finding an entry is a use
of it; an entry that is put in when the cache is full displaces the one whose last use is longest
ago.
-/

namespace PolicyReach

/-- A cache of at most `capacity` entries, the one used last in front. -/
structure RecencyCache (κ β : Type) where
  capacity : Nat
  entries : List (κ × β) := []

namespace RecencyCache

variable {κ β : Type} [DecidableEq κ]

/-- The number of entries. -/
def size (c : RecencyCache κ β) : Nat := c.entries.length

/-- The entries of all other keys, in order. -/
def others (c : RecencyCache κ β) (k : κ) : List (κ × β) := c.entries.filter fun e => e.1 != k

/-- The value of a key, with the cache in which it was used last. -/
def find? (c : RecencyCache κ β) (k : κ) : Option (β × RecencyCache κ β) :=
  (c.entries.lookup k).map fun v => (v, { c with entries := (k, v) :: c.others k })

/-- The cache with a value for a key. -/
def put (c : RecencyCache κ β) (k : κ) (v : β) : RecencyCache κ β :=
  { c with entries := ((k, v) :: c.others k).take c.capacity }

/-- The cache with no entries. -/
def cleared (c : RecencyCache κ β) : RecencyCache κ β := { c with entries := [] }

end RecencyCache

end PolicyReach
