/-!
# Byte strings

Byte strings are lists of octets. `little` and `big` write the low bytes of a
number, least or most significant first, and `ofLittle` and `ofBig` read them
back; a number too large for its field loses its high bytes.
-/
namespace RingCache

/-- A string of octets. -/
abbrev Bytes := List UInt8

namespace Bytes

/-- The `n` low bytes of a number, the least significant first. -/
def little : Nat → Nat → Bytes
  | 0, _ => []
  | n + 1, x => UInt8.ofNat x :: little n (x / 256)

/-- The number that bytes write, the least significant first. -/
def ofLittle : Bytes → Nat
  | [] => 0
  | b :: rest => b.toNat + 256 * ofLittle rest

/-- The `n` low bytes of a number, the most significant first. -/
def big (n x : Nat) : Bytes :=
  (little n x).reverse

/-- The number that bytes write, the most significant first. -/
def ofBig (bytes : Bytes) : Nat :=
  ofLittle bytes.reverse

/-- The least number that does not fit into `n` bytes. -/
def bound : Nat → Nat
  | 0 => 1
  | n + 1 => 256 * bound n

/-- The octets of a text in UTF-8. -/
def ofText (text : String) : Bytes :=
  text.toByteArray.data.toList

/-! ## Reading what was written -/

@[simp]
theorem length_little (n x : Nat) : (little n x).length = n := by
  induction n generalizing x with
  | zero => rfl
  | succ n ih => simp [little, ih]

@[simp]
theorem length_big (n x : Nat) : (big n x).length = n := by
  simp [big]

/-- A field of `n` bytes keeps a number modulo the bound of `n` bytes. -/
theorem ofLittle_little (n x : Nat) : ofLittle (little n x) = x % bound n := by
  induction n generalizing x with
  | zero => simp [little, ofLittle, bound, Nat.mod_one]
  | succ n ih =>
    have low : (UInt8.ofNat x).toNat = x % 256 := by simp
    rw [little, ofLittle, ih, low, bound, Nat.mod_mul]

theorem ofBig_big (n x : Nat) : ofBig (big n x) = x % bound n := by
  simp [ofBig, big, ofLittle_little]

/-- Every byte string writes exactly one number of its length. -/
theorem little_ofLittle (bytes : Bytes) : little bytes.length (ofLittle bytes) = bytes := by
  induction bytes with
  | nil => rfl
  | cons b rest ih =>
    have bound := b.toNat_lt
    have high : (b.toNat + 256 * ofLittle rest) / 256 = ofLittle rest := by omega
    have low : UInt8.ofNat (b.toNat + 256 * ofLittle rest) = b := by
      apply UInt8.toNat_inj.mp
      simp only [UInt8.toNat_ofNat']
      omega
    simp only [List.length_cons, little, ofLittle, high, low, ih]

theorem bound_pos (n : Nat) : 0 < bound n := by
  induction n with
  | zero => exact Nat.one_pos
  | succ n ih => rw [bound]; omega

theorem ofLittle_lt (bytes : Bytes) : ofLittle bytes < bound bytes.length := by
  have kept := ofLittle_little bytes.length (ofLittle bytes)
  rw [little_ofLittle] at kept
  rw [kept]
  exact Nat.mod_lt _ (bound_pos bytes.length)

end Bytes

end RingCache
