/-!
# The 64-bit xxHash of a byte sequence, with seed zero

Input of 32 bytes or more is eaten in stripes of four 64-bit lanes, each with an accumulator of
its own; the accumulators are then merged, the remaining bytes are mixed in by eights, fours and
ones, and the result is scrambled so that every input bit reaches every output bit. All arithmetic
is on words and wraps.
-/

namespace PolicyReach.XxHash64

def prime1 : UInt64 := 0x9E3779B185EBCA87
def prime2 : UInt64 := 0xC2B2AE3D27D4EB4F
def prime3 : UInt64 := 0x165667B19E3779F9
def prime4 : UInt64 := 0x85EBCA77C2B2AE63
def prime5 : UInt64 := 0x27D4EB2F165667C5

/-- `x` rotated left by `n` bits, `0 < n < 64`. -/
def rotl (x n : UInt64) : UInt64 := (x <<< n) ||| (x >>> (64 - n))

/-- The word whose little-endian bytes are given. -/
def word (bytes : List UInt8) : UInt64 :=
  bytes.foldr (fun b acc => (acc <<< 8) ||| b.toUInt64) 0

/-- One lane taken into an accumulator. -/
def round (acc lane : UInt64) : UInt64 := rotl (acc + lane * prime2) 31 * prime1

/-- The four accumulators. -/
structure Lanes where
  a : UInt64
  b : UInt64
  c : UInt64
  d : UInt64

namespace Lanes

def start : Lanes := ⟨prime1 + prime2, prime2, 0, 0 - prime1⟩

/-- One stripe of 32 bytes taken in. -/
def stripe (v : Lanes) (bytes : List UInt8) : Lanes where
  a := round v.a (word (bytes.take 8))
  b := round v.b (word ((bytes.drop 8).take 8))
  c := round v.c (word ((bytes.drop 16).take 8))
  d := round v.d (word ((bytes.drop 24).take 8))

/-- The accumulators joined into one word. -/
def merge (v : Lanes) : UInt64 :=
  let join (h lane : UInt64) : UInt64 := (h ^^^ round 0 lane) * prime1 + prime4
  let h := rotl v.a 1 + rotl v.b 7 + rotl v.c 12 + rotl v.d 18
  join (join (join (join h v.a) v.b) v.c) v.d

end Lanes

/-- All whole stripes taken in, with the bytes left over. There is another stripe when a byte is
left after 31; to see that, no more than these are looked at. -/
def stripes (v : Lanes) (bytes : List UInt8) : Lanes × List UInt8 :=
  if _h : bytes.drop 31 = [] then (v, bytes)
  else stripes (v.stripe (bytes.take 32)) (bytes.drop 32)
termination_by bytes.length
decreasing_by
  rw [List.drop_eq_nil_iff] at _h
  rw [List.length_drop]
  omega

/-- Fewer than four bytes mixed in, one by one. -/
def tailBytes (h : UInt64) (bytes : List UInt8) : UInt64 :=
  bytes.foldl (fun h b => rotl (h ^^^ (b.toUInt64 * prime5)) 11 * prime1) h

/-- Fewer than eight bytes mixed in: four at once if there are as many, then one by one. -/
def tailWord (h : UInt64) (bytes : List UInt8) : UInt64 :=
  if 4 ≤ bytes.length then
    tailBytes (rotl (h ^^^ (word (bytes.take 4) * prime1)) 23 * prime2 + prime3) (bytes.drop 4)
  else tailBytes h bytes

/-- Fewer than 32 bytes mixed in, by eights as far as they go. -/
def tail (h : UInt64) (bytes : List UInt8) : UInt64 :=
  if _h : 8 ≤ bytes.length then
    tail (rotl (h ^^^ round 0 (word (bytes.take 8))) 27 * prime1 + prime4) (bytes.drop 8)
  else tailWord h bytes
termination_by bytes.length
decreasing_by
  rw [List.length_drop]
  omega

/-- The final scrambling. -/
def avalanche (h : UInt64) : UInt64 :=
  let h := (h ^^^ (h >>> 33)) * prime2
  let h := (h ^^^ (h >>> 29)) * prime3
  h ^^^ (h >>> 32)

/-- The hash of a byte sequence. -/
def hash (bytes : List UInt8) : UInt64 :=
  let (h, rest) :=
    if 32 ≤ bytes.length then
      let (v, rest) := stripes Lanes.start bytes
      (v.merge, rest)
    else (prime5, bytes)
  avalanche (tail (h + UInt64.ofNat bytes.length) rest)

end PolicyReach.XxHash64
