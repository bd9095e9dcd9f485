import Mathlib.Data.String.Basic
import Mathlib.Tactic.SplitIfs
import RingCache.Bytes

/-!
# The order of texts and of their bytes

Texts are ordered by their characters. UTF-8 keeps that order: a greater character
has a greater first byte or, after equal bytes, a greater later one
(`utf8EncodeChar_append_lt`). So a text comes before another one exactly if its bytes
do (`ofText_lt_iff`).
-/
namespace RingCache.Bytes

/-! ## Digits -/

/-- The lesser of two numbers has lesser digits in front, or equal ones and a lesser
    last digit. -/
theorem digits_lt {x y : Nat} (less : x < y) : x / 64 < y / 64 ∨ x / 64 = y / 64 ∧ x % 64 < y % 64 := by
  omega

/-- A byte that carries a digit. -/
theorem toNat_ofNat_digit {n base bound : Nat} (fits : bound + base ≤ 256) (digits : 0 < bound) :
    (UInt8.ofNat (n % bound + base)).toNat = n % bound + base := by
  have below := Nat.mod_lt n digits
  rw [UInt8.toNat_ofNat']
  exact Nat.mod_eq_of_lt (by omega)

theorem toNat_ofNat_ascii {n : Nat} (ascii : n ≤ 127) : (UInt8.ofNat n).toNat = n := by
  rw [UInt8.toNat_ofNat']
  exact Nat.mod_eq_of_lt (by omega)

/-! ## Characters -/

theorem toNat_char_lt (c : Char) : c.val.toNat < 1114112 := by
  rcases c.valid with low | high
  · exact Nat.lt_trans low (by decide)
  · exact high.2

/-- The bytes of a lesser character come first, whatever follows. -/
theorem utf8EncodeChar_append_lt {c d : Char} (less : c < d) (after later : Bytes) :
    String.utf8EncodeChar c ++ after < String.utf8EncodeChar d ++ later := by
  have below : c.val.toNat < d.val.toNat := less
  have most := toNat_char_lt d
  rw [String.utf8EncodeChar.eq_1, String.utf8EncodeChar.eq_1]
  generalize c.val.toNat = x at *
  generalize d.val.toNat = y at *
  have leadX : x / 262144 % 8 = x / 262144 := Nat.mod_eq_of_lt (by omega)
  have leadY : y / 262144 % 8 = y / 262144 := Nat.mod_eq_of_lt (by omega)
  -- The numbers have up to four digits, and these are where they may differ.
  have last := digits_lt below
  have third : x / 64 < y / 64 → _ := digits_lt
  have second : x / 64 / 64 < y / 64 / 64 → _ := digits_lt
  simp only [Nat.div_div_eq_div_mul] at last third second
  split_ifs
  all_goals
    simp (disch := omega) only [List.cons_append, List.nil_append, List.cons_lt_cons_iff, UInt8.lt_iff_toNat_lt,
      ← UInt8.toNat_inj, toNat_ofNat_digit, toNat_ofNat_ascii]
    omega

theorem utf8EncodeChar_ne_nil (c : Char) : String.utf8EncodeChar c ≠ [] := by
  rw [String.utf8EncodeChar.eq_1]
  split_ifs <;> simp

/-! ## Texts -/

theorem flatMap_utf8EncodeChar_lt {cs ds : List Char} (less : cs < ds) :
    cs.flatMap String.utf8EncodeChar < ds.flatMap String.utf8EncodeChar := by
  induction cs generalizing ds with
  | nil =>
    cases ds with
    | nil => exact absurd less (List.lt_irrefl [])
    | cons d ds =>
      obtain ⟨first, more, bytes⟩ := List.exists_cons_of_ne_nil (utf8EncodeChar_ne_nil d)
      rw [List.flatMap_nil, List.flatMap_cons, bytes, List.cons_append]
      exact List.nil_lt_cons _ _
  | cons c cs ih =>
    cases ds with
    | nil => exact absurd less (List.not_lt_nil _)
    | cons d ds =>
      rw [List.flatMap_cons, List.flatMap_cons]
      rcases List.cons_lt_cons_iff.mp less with first | ⟨rfl, rest⟩
      · exact utf8EncodeChar_append_lt first _ _
      · exact List.append_left_lt (ih rest)

theorem ofText_eq_flatMap (text : String) : ofText text = text.toList.flatMap String.utf8EncodeChar := by
  conv => lhs; rw [← String.ofList_toList (s := text)]
  rw [ofText, String.toByteArray_ofList, List.utf8Encode]
  exact List.toList_data_toByteArray

theorem ofText_lt {a b : String} (less : a < b) : ofText a < ofText b := by
  rw [ofText_eq_flatMap, ofText_eq_flatMap]
  exact flatMap_utf8EncodeChar_lt (String.lt_iff_toList_lt.mp less)

/-- A text comes before another exactly if its bytes do. -/
theorem ofText_lt_iff {a b : String} : ofText a < ofText b ↔ a < b := by
  constructor
  · intro bytes
    rcases lt_trichotomy a b with less | rfl | greater
    · exact less
    · exact absurd bytes (List.lt_irrefl _)
    · exact absurd bytes (List.lt_asymm (ofText_lt greater))
  · exact ofText_lt

end RingCache.Bytes
