import GrammarKit.Text.Input
import Mathlib.Algebra.Group.Nat.Defs
import Mathlib.Order.Monotone.Basic
import Mathlib.Tactic.SplitIfs

/-!
# The order of bytes

Texts are compared character by character.  The bytes of a character are its number in base 64, the
highest digit in the first byte, on top of a mark that grows with the number of bytes.  So a character
with a larger number has larger bytes, and texts are ordered as their bytes are.

* `utf8EncodeChar_eq`: the bytes of a character, by its digits.
* `utf8EncodeChar_append_lt`: a smaller character has smaller bytes, whatever stands behind it.
* `lt_iff_utf8_lt`: the order of texts is that of their bytes.
-/

namespace GrammarKit

/-! ## 1.  Digits -/

/-- The bytes behind the first one: so many digits of the number, the last of them the lowest. -/
def lowBytes (value : Nat) : Nat → List UInt8
  | 0 => []
  | count + 1 => UInt8.ofNat (value / 64 ^ count % 64 + 128) :: lowBytes value count

/-- How many bytes there are behind the first one. -/
def lowCount (value : Nat) : Nat :=
  if value < 0x80 then 0 else if value < 0x800 then 1 else if value < 0x10000 then 2 else 3

/-- What the first byte has on top of the highest digit. -/
def firstMark : Nat → Nat
  | 0 => 0
  | 1 => 192
  | 2 => 224
  | 3 => 240
  | _ => 248

/-- The first byte. -/
def firstByte (value : Nat) : Nat := firstMark (lowCount value) + value / 64 ^ lowCount value

theorem toNat_lt_limit (c : Char) : c.toNat < 0x110000 := by
  rcases c.valid with h | h
  · exact Nat.lt_trans h (by decide)
  · exact h.2

/-- The bytes of a character are its digits, with a mark on each of them. -/
theorem utf8EncodeChar_eq (c : Char) :
    String.utf8EncodeChar c =
      UInt8.ofNat (firstByte c.toNat) :: lowBytes c.toNat (lowCount c.toNat) := by
  have hlimit := toNat_lt_limit c
  unfold String.utf8EncodeChar firstByte lowCount
  rw [Char.toNat] at hlimit ⊢
  generalize c.val.toNat = value at hlimit ⊢
  dsimp only
  by_cases h1 : value < 0x80
  · rw [if_pos h1, if_pos (by omega)]
    simp [firstMark, lowBytes]
  · rw [if_neg h1, if_neg (by omega)]
    by_cases h2 : value < 0x800
    · have hfirst : value / 64 % 0x20 + 0xc0 = 192 + value / 64 := by omega
      rw [if_pos h2, if_pos (by omega), hfirst]
      simp [firstMark, lowBytes]
    · rw [if_neg h2, if_neg (by omega)]
      by_cases h3 : value < 0x10000
      · have hfirst : value / 4096 % 0x10 + 0xe0 = 224 + value / 4096 := by omega
        rw [if_pos h3, if_pos (by omega), hfirst]
        simp [firstMark, lowBytes]
      · have hfirst : value / 262144 % 0x08 + 0xf0 = 240 + value / 262144 := by omega
        rw [if_neg h3, if_neg (by omega), hfirst]
        simp [firstMark, lowBytes]

theorem firstByte_lt {value : Nat} (h : value < 0x110000) :
    firstByte value < firstMark (lowCount value + 1) := by
  unfold firstByte lowCount
  split_ifs <;> simp only [firstMark] <;> omega

theorem firstMark_le_firstByte (value : Nat) : firstMark (lowCount value) ≤ firstByte value :=
  Nat.le_add_right _ _

theorem firstMark_mono : Monotone firstMark := by
  refine monotone_nat_of_le_succ fun count => ?_
  match count with
  | 0 | 1 | 2 | 3 => decide
  | _ + 4 => exact Nat.le_refl _

theorem firstMark_le (count : Nat) : firstMark count ≤ 248 := by
  match count with
  | 0 | 1 | 2 | 3 => decide
  | _ + 4 => exact Nat.le_refl _

theorem lowCount_mono : Monotone lowCount := by
  intro value larger h
  unfold lowCount
  split_ifs <;> omega

/-! ## 2.  Bytes are ordered as numbers are -/

variable {value larger : Nat} {more rest : List UInt8}

theorem ofNat_lt_ofNat {m n : Nat} (hlt : m < n) (hn : n < 256) : UInt8.ofNat m < UInt8.ofNat n :=
  (UInt8.ofNat_lt_iff_lt (Nat.lt_trans hlt hn) hn).mpr hlt

/-- With the digits above alike, the first digit that differs decides. -/
theorem lowBytes_append_lt (hlt : value < larger) {count : Nat}
    (habove : value / 64 ^ count = larger / 64 ^ count) :
    lowBytes value count ++ more < lowBytes larger count ++ rest := by
  induction count with
  | zero =>
    rw [Nat.pow_zero, Nat.div_one, Nat.div_one] at habove
    exact absurd habove (Nat.ne_of_lt hlt)
  | succ count ih =>
    rw [Nat.pow_succ, ← Nat.div_div_eq_div_mul, ← Nat.div_div_eq_div_mul] at habove
    rw [lowBytes, lowBytes, List.cons_append, List.cons_append, List.cons_lt_cons_iff]
    rcases Nat.lt_or_eq_of_le (Nat.div_le_div_right (c := 64 ^ count) hlt.le) with hdigit | hdigit
    · exact Or.inl (ofNat_lt_ofNat (by omega) (by omega))
    · exact Or.inr ⟨by rw [hdigit], ih hdigit⟩

/-- **A smaller character has smaller bytes**, whatever stands behind it. -/
theorem utf8EncodeChar_append_lt {c d : Char} (h : c < d) :
    String.utf8EncodeChar c ++ more < String.utf8EncodeChar d ++ rest := by
  have hlt : c.toNat < d.toNat := h
  have hd : firstByte d.toNat < 256 :=
    (firstByte_lt (toNat_lt_limit d)).trans_le ((firstMark_le _).trans (by decide))
  rw [utf8EncodeChar_eq, utf8EncodeChar_eq, List.cons_append, List.cons_append,
    List.cons_lt_cons_iff]
  rcases Nat.lt_or_eq_of_le (lowCount_mono hlt.le) with hcount | hcount
  · -- More bytes need a larger mark.
    left
    refine ofNat_lt_ofNat ?_ hd
    calc firstByte c.toNat < firstMark (lowCount c.toNat + 1) := firstByte_lt (toNat_lt_limit c)
      _ ≤ firstMark (lowCount d.toNat) := firstMark_mono hcount
      _ ≤ firstByte d.toNat := firstMark_le_firstByte _
  · rw [firstByte, firstByte, hcount] at *
    rcases Nat.lt_or_eq_of_le (Nat.div_le_div_right (c := 64 ^ lowCount d.toNat) hlt.le) with
      hdigit | hdigit
    · exact Or.inl (ofNat_lt_ofNat (Nat.add_lt_add_left hdigit _) hd)
    · exact Or.inr ⟨by rw [hdigit], lowBytes_append_lt hlt hdigit⟩

/-! ## 3.  Texts -/

theorem utf8_lt_of_lt {chars chars' : List Char} (h : chars < chars') : utf8 chars < utf8 chars' := by
  induction chars generalizing chars' with
  | nil =>
    cases chars' with
    | nil => exact absurd h (List.lt_irrefl _)
    | cons c chars' =>
      rw [utf8_cons, utf8EncodeChar_eq]
      exact List.nil_lt_cons _ _
  | cons c chars ih =>
    cases chars' with
    | nil => exact absurd h (List.not_lt_nil _)
    | cons c' chars' =>
      rw [utf8_cons, utf8_cons]
      rcases List.cons_lt_cons_iff.mp h with hc | ⟨rfl, hchars⟩
      · exact utf8EncodeChar_append_lt hc
      · exact List.append_left_lt (ih hchars)

/-- **Texts are ordered as their bytes are.** -/
theorem lt_iff_utf8_lt {s t : String} : s < t ↔ utf8 s.toList < utf8 t.toList := by
  refine ⟨utf8_lt_of_lt, fun h => ?_⟩
  by_contra hst
  by_cases hts : t < s
  · exact List.lt_asymm h (utf8_lt_of_lt hts)
  · obtain rfl := String.le_antisymm (String.not_lt.mp hts) (String.not_lt.mp hst)
    exact List.lt_irrefl _ h

end GrammarKit
