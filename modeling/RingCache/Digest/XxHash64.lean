import RingCache.Bytes

/-!
# The digest xxHash64

Four lanes take in stripes of 32 bytes, eight bytes to a lane; what is left is
taken in by eight, then four, then single bytes, and a last mix spreads the bits.
All arithmetic is modulo 2^64 and all words are little-endian.
-/
namespace RingCache.Digest.XxHash64

def prime1 : UInt64 := 11400714785074694791
def prime2 : UInt64 := 14029467366897019727
def prime3 : UInt64 := 1609587929392839161
def prime4 : UInt64 := 9650029242287828579
def prime5 : UInt64 := 2870177450012600261

/-- A word with its bits moved `n` places up, the high ones coming back below,
    for `n` from 1 to 63. -/
def rotate (x n : UInt64) : UInt64 :=
  (x <<< n) ||| (x >>> (64 - n))

/-- The word that the first `n` bytes write. -/
def word (n : Nat) (bytes : Bytes) : UInt64 :=
  UInt64.ofNat (Bytes.ofLittle (bytes.take n))

/-- A lane after it has taken in a word. -/
def round (lane input : UInt64) : UInt64 :=
  rotate (lane + input * prime2) 31 * prime1

/-- The four lanes. -/
structure Lanes where
  a : UInt64
  b : UInt64
  c : UInt64
  d : UInt64

/-- The lanes before any stripe. -/
def Lanes.start (seed : UInt64) : Lanes :=
  ⟨seed + prime1 + prime2, seed + prime2, seed, seed - prime1⟩

/-- The lanes after a stripe. -/
def Lanes.take (lanes : Lanes) (stripe : Bytes) : Lanes where
  a := round lanes.a (word 8 stripe)
  b := round lanes.b (word 8 (stripe.drop 8))
  c := round lanes.c (word 8 (stripe.drop 16))
  d := round lanes.d (word 8 (stripe.drop 24))

/-- The lanes after all whole stripes, and the bytes that are left. -/
def Lanes.absorb (lanes : Lanes) (bytes : Bytes) : Lanes × Bytes :=
  match _left : bytes.drop 31 with
  | [] => (lanes, bytes)
  | _ :: rest => (lanes.take bytes).absorb rest
termination_by bytes.length
decreasing_by
  have length := congrArg List.length _left
  simp only [List.length_drop, List.length_cons] at length
  omega

/-- A hash with one lane mixed in. -/
def merge (hash lane : UInt64) : UInt64 :=
  (hash ^^^ round 0 lane) * prime1 + prime4

/-- The lanes joined to one word. -/
def Lanes.join (lanes : Lanes) : UInt64 :=
  let sum := rotate lanes.a 1 + rotate lanes.b 7 + rotate lanes.c 12 + rotate lanes.d 18
  merge (merge (merge (merge sum lanes.a) lanes.b) lanes.c) lanes.d

/-- A hash after the bytes that fill no stripe. -/
def finish (hash : UInt64) : Bytes → UInt64
  | b0 :: b1 :: b2 :: b3 :: b4 :: b5 :: b6 :: b7 :: rest =>
    finish (rotate (hash ^^^ round 0 (word 8 [b0, b1, b2, b3, b4, b5, b6, b7])) 27 * prime1 + prime4) rest
  | b0 :: b1 :: b2 :: b3 :: rest =>
    finish (rotate (hash ^^^ word 4 [b0, b1, b2, b3] * prime1) 23 * prime2 + prime3) rest
  | b :: rest => finish (rotate (hash ^^^ b.toUInt64 * prime5) 11 * prime1) rest
  | [] => hash

/-- The last mix. -/
def avalanche (hash : UInt64) : UInt64 :=
  let hash := (hash ^^^ (hash >>> 33)) * prime2
  let hash := (hash ^^^ (hash >>> 29)) * prime3
  hash ^^^ (hash >>> 32)

/-- The digest of a byte string under a seed. -/
def digest (seed : UInt64) (bytes : Bytes) : UInt64 :=
  let length := UInt64.ofNat bytes.length
  let (lanes, rest) := (Lanes.start seed).absorb bytes
  let hash := match bytes.drop 31 with
    | [] => seed + prime5
    | _ :: _ => lanes.join
  avalanche (finish (hash + length) rest)

end RingCache.Digest.XxHash64
