import AmneziaWG.Lib.Patch
import Mathlib.Data.List.Basic
import Mathlib.Data.Nat.ModEq
import Mathlib.Data.Nat.GCD.Basic
import Mathlib.Tactic.NormNum
import Mathlib.Tactic.Ring

/-!
# One's Complement Sums

Sums with end-around carry.  Such a sum is a number modulo `2 ^ w - 1` together with the knowledge
whether all summands were zero: `Represents` says both, and is kept by every way of adding, folding
and reordering.

## Main results

- `represents_fold`: adding the carries to the low bits keeps what a word stands for.
- `Represents.unique`: a sum has one representative in a word.
- `represents_native`: words in either byte order stand for the sum of the big-endian words of 16
  bits.
-/

namespace AmneziaWG.Lib

open List Nat

/-! ## §1 Representatives -/

/-- `x` stands for the sum `s`: it is congruent to it, and is zero only when the sum is. -/
structure Represents (m x s : ℕ) : Prop where
  modEq : x ≡ s [MOD m]
  zero_iff : x = 0 ↔ s = 0

namespace Represents

variable {m x y s t : ℕ}

theorem refl (m s : ℕ) : Represents m s s := ⟨Nat.ModEq.refl s, Iff.rfl⟩

theorem trans (h : Represents m x s) (h' : Represents m s t) : Represents m x t :=
  ⟨h.modEq.trans h'.modEq, h.zero_iff.trans h'.zero_iff⟩

theorem symm (h : Represents m x s) : Represents m s x := ⟨h.modEq.symm, h.zero_iff.symm⟩

theorem add (h : Represents m x s) (h' : Represents m y t) : Represents m (x + y) (s + t) := by
  refine ⟨h.modEq.add h'.modEq, ?_⟩
  rw [Nat.add_eq_zero_iff, Nat.add_eq_zero_iff, h.zero_iff, h'.zero_iff]

theorem mul_left (h : Represents m x s) {c : ℕ} (hc : c ≠ 0) : Represents m (c * x) (c * s) := by
  refine ⟨h.modEq.mul_left c, ?_⟩
  simp [hc, h.zero_iff]

theorem of_dvd (h : Represents m x s) {n : ℕ} (hn : n ∣ m) : Represents n x s :=
  ⟨h.modEq.of_dvd hn, h.zero_iff⟩

theorem mul_one_mod {c : ℕ} (hc : c ≡ 1 [MOD m]) (h0 : c ≠ 0) (s : ℕ) : Represents m (c * s) s := by
  refine ⟨?_, by simp [h0]⟩
  simpa using hc.mul_right s

/-- A sum has one representative that is at most `m`: only zero and `m` are congruent. -/
theorem unique (hx : Represents m x s) (hy : Represents m y s) (hxm : x ≤ m) (hym : y ≤ m) :
    x = y := by
  have hmod : x ≡ y [MOD m] := hx.modEq.trans hy.modEq.symm
  have hzero : x = 0 ↔ y = 0 := hx.zero_iff.trans hy.zero_iff.symm
  rcases lt_or_ge x m with hlt | hge
  · rcases lt_or_ge y m with hlt' | hge'
    · exact hmod.eq_of_lt_of_lt hlt hlt'
    · have hy' : y = m := le_antisymm hym hge'
      have hx0 : x % m = 0 := by rw [hmod, hy', mod_self]
      rw [mod_eq_of_lt hlt] at hx0
      rw [hx0, hzero.mp hx0]
  · have hx' : x = m := le_antisymm hxm hge
    rcases lt_or_ge y m with hlt' | hge'
    · have hy0 : y % m = 0 := by rw [← hmod, hx', mod_self]
      rw [mod_eq_of_lt hlt'] at hy0
      rw [hy0, hzero.mpr hy0]
    · rw [hx', le_antisymm hym hge']

/-- The top word stands for a sum that is a multiple of `m` and not zero. -/
theorem eq_top_iff (hx : Represents m x s) (hxm : x ≤ m) (hm : 0 < m) :
    x = m ↔ s ≠ 0 ∧ s % m = 0 := by
  constructor
  · intro h
    refine ⟨fun hs => ?_, ?_⟩
    · have := hx.zero_iff.mpr hs
      omega
    · rw [← hx.modEq, h, mod_self]
  · rintro ⟨hs, hmod⟩
    refine hx.unique ⟨?_, ?_⟩ hxm (le_refl m)
    · rw [Nat.ModEq, mod_self, hmod]
    · exact ⟨fun h => absurd h (by omega), fun h => absurd h hs⟩

end Represents

/-- End-around carry: what does not fit into `w` bits is added at the low end. -/
theorem represents_fold (w x : ℕ) : Represents (2 ^ w - 1) (x / 2 ^ w + x % 2 ^ w) x := by
  have hpos : 0 < 2 ^ w := Nat.two_pow_pos w
  have hsplit : x = 2 ^ w * (x / 2 ^ w) + x % 2 ^ w := (div_add_mod x (2 ^ w)).symm
  refine ⟨?_, ?_⟩
  · have hone : 1 ≡ 2 ^ w [MOD 2 ^ w - 1] := (modEq_iff_dvd' hpos).mpr (dvd_refl _)
    calc x / 2 ^ w + x % 2 ^ w = 1 * (x / 2 ^ w) + x % 2 ^ w := by rw [one_mul]
      _ ≡ 2 ^ w * (x / 2 ^ w) + x % 2 ^ w [MOD 2 ^ w - 1] := (hone.mul_right _).add_right _
      _ = x := hsplit.symm
  · constructor
    · intro h
      rw [hsplit, Nat.eq_zero_of_add_eq_zero_right h, Nat.eq_zero_of_add_eq_zero_left h]
      simp
    · rintro rfl
      simp

/-! ## §2 Sums of words of 16 bits -/

/-- The sum of the big-endian words of 16 bits; an odd last byte is the high byte of a word. -/
def wordSum : Bytes → ℕ
  | [] => 0
  | [x] => 256 * x.toNat
  | x :: y :: rest => 256 * x.toNat + y.toNat + wordSum rest

theorem wordSum_append {a : Bytes} (b : Bytes) (ha : Even a.length) :
    wordSum (a ++ b) = wordSum a + wordSum b := by
  induction a using wordSum.induct with
  | case1 => simp [wordSum]
  | case2 x => simp at ha
  | case3 x y rest ih =>
    have heven : Even rest.length := by simpa [Nat.even_add_one] using ha
    simp only [List.cons_append, wordSum, ih heven]
    ring

theorem wordSum_eq_zero_iff (b : Bytes) : wordSum b = 0 ↔ ∀ x ∈ b, x = 0 := by
  have hbyte : ∀ x : Byte, x.toNat = 0 ↔ x = 0 := fun x => by
    rw [← BitVec.toNat_inj]
    rfl
  induction b using wordSum.induct with
  | case1 => simp [wordSum]
  | case2 x => simp [wordSum, hbyte]
  | case3 x y rest ih => simp [wordSum, hbyte, ih, and_assoc]

/-- Folding until the sum fits into 16 bits: `for (ac >> 16) > 0 { … }`. -/
def fold16 (s : ℕ) : ℕ :=
  if s < 2 ^ 16 then s else fold16 (s / 2 ^ 16 + s % 2 ^ 16)
  termination_by s
  decreasing_by omega

theorem fold16_represents (s : ℕ) : Represents 65535 (fold16 s) s ∧ fold16 s ≤ 65535 := by
  induction s using fold16.induct with
  | case1 s hs =>
    rw [fold16, if_pos hs]
    exact ⟨Represents.refl _ s, by omega⟩
  | case2 s hs ih =>
    rw [fold16, if_neg hs]
    exact ⟨ih.1.trans (represents_fold 16 s), ih.2⟩

/-! ## §3 Words of a host -/

/-- What a word in the byte order of a host is multiplied by to give its big-endian value. -/
def Endian.factor : Endian → ℕ
  | .little => 256
  | .big => 1

theorem Endian.factor_ne_zero (e : Endian) : e.factor ≠ 0 := by cases e <;> decide

theorem Endian.factor_mul_factor (e : Endian) : e.factor * e.factor ≡ 1 [MOD 65535] := by
  cases e <;> decide

theorem represents_factor_factor (e : Endian) (s : ℕ) :
    Represents 65535 (e.factor * (e.factor * s)) s := by
  rw [← mul_assoc]
  exact Represents.mul_one_mod e.factor_mul_factor (mul_ne_zero e.factor_ne_zero e.factor_ne_zero) s

theorem beNat_pair (x y : Byte) (rest : Bytes) :
    beNat (x :: y :: rest) = 2 ^ (8 * rest.length) * (256 * x.toNat + y.toNat) + beNat rest := by
  rw [beNat_cons, beNat_cons, List.length_cons, Nat.mul_add, pow_add]
  ring

variable {b : Bytes} {off : ℕ}

theorem represents_beNat (hb : Even b.length) : Represents 65535 (beNat b) (wordSum b) := by
  induction b using wordSum.induct with
  | case1 => exact Represents.refl _ _
  | case2 x => simp at hb
  | case3 x y rest ih =>
    have heven : Even rest.length := by simpa [even_add_one] using hb
    obtain ⟨k, hk⟩ := heven
    -- the weight of a word is a power of `2 ^ 16`
    have hweight : 2 ^ (8 * rest.length) ≡ 1 [MOD 65535] := by
      have hpow : 2 ^ (8 * rest.length) = 65536 ^ k := by
        rw [hk, show (65536 : ℕ) = 2 ^ 16 by norm_num, ← pow_mul]
        congr 1
        omega
      rw [hpow]
      simpa using (show 65536 ≡ 1 [MOD 65535] by decide).pow k
    rw [beNat_pair]
    exact (Represents.mul_one_mod hweight (by positivity) _).add (ih ⟨k, hk⟩)

theorem represents_leNat (hb : Even b.length) : Represents 65535 (leNat b) (256 * wordSum b) := by
  induction b using wordSum.induct with
  | case1 => exact Represents.refl _ _
  | case2 x => simp at hb
  | case3 x y rest ih =>
    have heven : Even rest.length := by simpa [even_add_one] using hb
    have hword : 65536 ≡ 1 [MOD 65535] := by decide
    have hsplit : leNat (x :: y :: rest) = (x.toNat + 256 * y.toNat) + 65536 * leNat rest := by
      simp only [leNat]
      ring
    have hfirst : Represents 65535 (x.toNat + 256 * y.toNat) (65536 * x.toNat + 256 * y.toNat) :=
      (Represents.mul_one_mod hword (by decide) _).symm.add (Represents.refl _ _)
    have hrest := (Represents.mul_one_mod hword (by decide) (leNat rest)).trans (ih heven)
    have hsum : 256 * wordSum (x :: y :: rest) =
        (65536 * x.toNat + 256 * y.toNat) + 256 * wordSum rest := by
      simp only [wordSum]
      ring
    rw [hsplit, hsum]
    exact hfirst.add hrest

/-- A word in the byte order of the host stands for the sum of its big-endian words, up to the
factor. -/
theorem represents_native (e : Endian) (hb : Even b.length) :
    Represents 65535 (e.nat b) (e.factor * wordSum b) := by
  cases e with
  | little => exact represents_leNat hb
  | big => simpa [Endian.nat, Endian.factor] using represents_beNat hb

/-! ## §4 Fields -/

theorem wordSum_be16 (v : BitVec 16) : wordSum (be16 v) = v.toNat := by
  have h := beNat_be16 v
  simpa [be16, wordSum, beNat] using h

/-- A word at an even offset contributes its value. -/
theorem wordSum_patch (v : BitVec 16) (heven : Even off) (h : off + 2 ≤ b.length) :
    wordSum (patch b off (be16 v)) = wordSum (patch b off [0, 0]) + v.toNat := by
  have hfront : Even (b.take off).length := by
    rw [length_take, min_eq_left (by omega)]
    exact heven
  have hsplit : ∀ src : Bytes, src.length = 2 → wordSum (patch b off src) =
      wordSum (b.take off) + (wordSum src + wordSum (b.drop (off + 2))) := by
    intro src hsrc
    rw [patch_eq (by omega), wordSum_append _ hfront, wordSum_append _ (by rw [hsrc]; decide), hsrc]
  rw [hsplit _ (be16_length v), hsplit [0, 0] rfl, wordSum_be16]
  have hzero : wordSum [0, 0] = 0 := by decide
  omega

theorem be16_beNat (x y : Byte) : be16 (BitVec.ofNat 16 (beNat [x, y])) = [x, y] := by
  have hx := x.isLt
  have hy := y.isLt
  have hvalue : beNat [x, y] = 256 * x.toNat + y.toNat := by simp [beNat]
  have hlt : (256 * x.toNat + y.toNat) % 2 ^ 16 = 256 * x.toNat + y.toNat := mod_eq_of_lt (by omega)
  rw [hvalue, be16]
  congr 1
  · apply BitVec.eq_of_toNat_eq
    rw [BitVec.toNat_setWidth, BitVec.toNat_ushiftRight, BitVec.toNat_ofNat, hlt,
      shiftRight_eq_div_pow]
    omega
  · congr 1
    apply BitVec.eq_of_toNat_eq
    rw [BitVec.toNat_setWidth, BitVec.toNat_ofNat, hlt]
    omega

theorem field_two (h : off + 2 ≤ b.length) : field b off 2 = be16 (be16At b off) := by
  have hlen : (field b off 2).length = 2 := field_length h
  obtain ⟨x, y, hxy⟩ : ∃ x y, field b off 2 = [x, y] := length_eq_two.mp hlen
  rw [be16At, hxy, be16_beNat]

/-- Clearing a word takes its value away. -/
theorem wordSum_clear (heven : Even off) (h : off + 2 ≤ b.length) :
    wordSum b = wordSum (patch b off [0, 0]) + (be16At b off).toNat := by
  have hsame : patch b off (be16 (be16At b off)) = b := by
    apply ext_getElem?
    intro k
    by_cases hk : off ≤ k ∧ k < off + 2
    · rw [← field_two h, patch_field_getElem? h h hk.1 hk.2, Nat.add_sub_cancel' hk.1]
    · exact patch_getElem?_of_outside _ (by rw [be16_length]; omega)
  rw [← wordSum_patch _ heven h, hsame]

end AmneziaWG.Lib
