import PolicyReach.Ordered.Key
import PolicyReach.Json.Record
import PolicyReach.Text.Decimal
import PolicyReach.Text.Blank

/-!
# Graph handles

A handle names a slot of a registry, the generation of what the slot holds, and the epoch in which
it was issued. Its token is `graph:SLOT:GENERATION:EPOCH`, the numbers in decimal; a token may be
written with leading zeros or a plus sign.
-/

namespace PolicyReach

open Std

/-- The name of something registered. -/
structure Handle where
  slot : UInt32
  generation : UInt32
  epoch : UInt64
  deriving DecidableEq, Inhabited

namespace Handle

/-- Handles are ordered by slot, generation and epoch. -/
def key (h : Handle) : KeyPair UInt32 (KeyPair UInt32 UInt64) := ⟨h.slot, ⟨h.generation, h.epoch⟩⟩

instance : Ord Handle := ⟨fun a b => compare a.key b.key⟩

instance : TransOrd Handle := transOrd_of_key key fun _ _ => rfl

instance : LawfulEqOrd Handle := lawfulEqOrd_of_key key (fun _ _ => rfl) fun a b h => by
  cases a
  cases b
  cases h
  rfl

/-- The word that begins a token. -/
def tokenWord : String := "graph"

/-- The characters of a handle's token. -/
def tokenChars (h : Handle) : List Char :=
  tokenWord.toList ++ ':' :: Text.decimal h.slot.toNat ++ ':' :: Text.decimal h.generation.toNat
    ++ ':' :: Text.decimal h.epoch.toNat

/-- A handle's token. -/
def token (h : Handle) : String := String.ofList h.tokenChars

/-- The handle that the characters of a token name. -/
def ofChars? (cs : List Char) : Option Handle :=
  match Text.pieces (· == ':') cs with
  | [word, slot, generation, epoch] =>
    if word = tokenWord.toList then do
      some
        { slot := ← Text.uint32? slot
          generation := ← Text.uint32? generation
          epoch := ← Text.uint64? epoch }
    else none
  | _ => none

/-- The handle that a token names. -/
def ofToken? (s : String) : Option Handle := ofChars? s.toList

def toJson (h : Handle) : Json := .str h.token

def ofJson? (v : Json) : Option Handle := v.string.bind ofToken?

end Handle

/-- Why a handle names nothing. -/
inductive HandleFault where
  /-- Nothing is held under it. -/
  | unknown
  /-- What it named belongs to an earlier epoch. -/
  | stale (issued current : UInt64)
  deriving DecidableEq

/-- The words for a fault. -/
def HandleFault.message : HandleFault → String
  | .unknown => "no such graph"
  | .stale issued current =>
    "issued at epoch " ++ toString issued.toNat ++ ", current epoch is " ++ toString current.toNat

end PolicyReach
