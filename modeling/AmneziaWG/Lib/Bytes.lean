import Mathlib.Data.Nat.Bitwise
import Mathlib.Data.Nat.Size
import Mathlib.Tactic.Common
import Mathlib.Tactic.Ring

/-!
# Byte Strings and Their Bits

Byte strings as lists of 8-bit words, their big-endian value, and their bits
counted from the most significant bit of the first byte.

## Main results

- `beNat_testBit`: the big-endian value and the bit string are the same bits.
- `le_leadingZeros_xor_iff`: the number of leading zeros of an exclusive or is the
  length of the longest common bit prefix.
-/

namespace AmneziaWG.Lib

open List BitVec Nat

abbrev Byte := BitVec 8

abbrev Bytes := List Byte

/-! ## §1 Big-endian values -/

def beNat : Bytes → ℕ
  | [] => 0
  | x :: xs => 2 ^ (8 * xs.length) * x.toNat + beNat xs

@[simp] theorem beNat_nil : beNat [] = 0 := rfl

theorem beNat_cons (x : Byte) (xs : Bytes) :
    beNat (x :: xs) = 2 ^ (8 * xs.length) * x.toNat + beNat xs := rfl

theorem beNat_lt (b : Bytes) : beNat b < 2 ^ (8 * b.length) := by
  induction b with
  | nil => simp
  | cons x xs ih =>
    have hx : x.toNat + 1 ≤ 2 ^ 8 := x.isLt
    calc beNat (x :: xs) < 2 ^ (8 * xs.length) * x.toNat + 2 ^ (8 * xs.length) := by
          rw [beNat_cons]
          exact Nat.add_lt_add_left ih _
      _ = 2 ^ (8 * xs.length) * (x.toNat + 1) := by ring
      _ ≤ 2 ^ (8 * xs.length) * 2 ^ 8 := mul_le_mul_left _ hx
      _ = 2 ^ (8 * (x :: xs).length) := by rw [← pow_add, length_cons]; ring_nf

/-! ## §2 Bits, most significant first -/

/-- Bit `i` of a byte string, counted from the top of its first byte. -/
def bitAt (b : Bytes) (i : ℕ) : Bool :=
  (b.getD (i / 8) 0).getLsbD (7 - i % 8)

def toBits (b : Bytes) : List Bool :=
  (List.range (8 * b.length)).map (bitAt b)

@[simp] theorem toBits_length (b : Bytes) : (toBits b).length = 8 * b.length := by
  simp [toBits]

variable {i k : ℕ} {a b : Bytes} {v : ℤ}

theorem toBits_getElem? (b : Bytes) (hi : i < 8 * b.length) :
    (toBits b)[i]? = some (bitAt b i) := by
  simp [toBits, hi]

theorem bitAt_cons_lt (x : Byte) (xs : Bytes) (hi : i < 8) :
    bitAt (x :: xs) i = x.getLsbD (7 - i) := by
  have h0 : i / 8 = 0 := div_eq_of_lt hi
  rw [bitAt, h0, mod_eq_of_lt hi]
  rfl

theorem bitAt_cons_ge (x : Byte) (xs : Bytes) (i : ℕ) : bitAt (x :: xs) (i + 8) = bitAt xs i := by
  have hdiv : (i + 8) / 8 = i / 8 + 1 := by omega
  have hmod : (i + 8) % 8 = i % 8 := by omega
  rw [bitAt, hdiv, hmod, getD_cons_succ]
  rfl

/-- The bits of a byte string are the bits of its big-endian value, read downwards. -/
theorem beNat_testBit (b : Bytes) (hi : i < 8 * b.length) :
    (beNat b).testBit (8 * b.length - 1 - i) = bitAt b i := by
  induction b generalizing i with
  | nil => simp at hi
  | cons x xs ih =>
    rw [length_cons] at hi ⊢
    rw [beNat_cons, testBit_two_pow_mul_add _ (beNat_lt xs)]
    by_cases h8 : i < 8
    · rw [if_neg (by omega), bitAt_cons_lt x xs h8, getLsbD]
      congr 1
      omega
    · obtain ⟨j, rfl⟩ : ∃ j, i = j + 8 := ⟨i - 8, by omega⟩
      rw [if_pos (by omega), bitAt_cons_ge, ← ih (by omega)]
      congr 1
      omega

/-! ## §3 Common bit prefixes -/

def AgreeTo (k : ℕ) (a b : Bytes) : Prop :=
  ∀ i < k, bitAt a i = bitAt b i

theorem AgreeTo.symm (h : AgreeTo k a b) : AgreeTo k b a :=
  fun i hi => (h i hi).symm

theorem AgreeTo.trans {c : Bytes} (h₁ : AgreeTo k a b) (h₂ : AgreeTo k b c) : AgreeTo k a c :=
  fun i hi => (h₁ i hi).trans (h₂ i hi)

theorem AgreeTo.mono {j : ℕ} (h : AgreeTo k a b) (hjk : j ≤ k) : AgreeTo j a b :=
  fun i hi => h i (lt_of_lt_of_le hi hjk)

theorem AgreeTo.refl (k : ℕ) (a : Bytes) : AgreeTo k a a := fun _ _ => rfl

theorem agreeTo_succ : AgreeTo (k + 1) a b ↔ AgreeTo k a b ∧ bitAt a k = bitAt b k := by
  constructor
  · intro h
    exact ⟨h.mono k.le_succ, h k k.lt_succ_self⟩
  · rintro ⟨h, hk⟩ i hi
    rcases Nat.lt_succ_iff_lt_or_eq.mp hi with hlt | rfl
    · exact h i hlt
    · exact hk

theorem take_toBits_eq_iff (hlen : a.length = b.length) (hk : k ≤ 8 * a.length) :
    (toBits a).take k = (toBits b).take k ↔ AgreeTo k a b := by
  constructor
  · intro h i hi
    have hget := congrArg (fun l => l[i]?) h
    simp only [getElem?_take_of_lt hi] at hget
    rw [toBits_getElem? a (by omega), toBits_getElem? b (by omega)] at hget
    exact Option.some.inj hget
  · intro h
    apply ext_getElem?
    intro i
    by_cases hi : i < k
    · rw [getElem?_take_of_lt hi, getElem?_take_of_lt hi,
        toBits_getElem? a (by omega), toBits_getElem? b (by omega), h i hi]
    · rw [getElem?_take_eq_none (not_lt.mp hi), getElem?_take_eq_none (not_lt.mp hi)]

theorem eq_of_agreeTo (hlen : a.length = b.length) (h : AgreeTo (8 * a.length) a b) : a = b := by
  apply ext_getElem hlen
  intro j hja hjb
  apply eq_of_getLsbD_eq
  intro i hi
  have hbit := h (8 * j + (7 - i)) (by omega)
  have hdiv : (8 * j + (7 - i)) / 8 = j := by omega
  have hmod : 7 - (8 * j + (7 - i)) % 8 = i := by omega
  rw [bitAt, bitAt, hdiv, hmod] at hbit
  simpa [hja, hjb] using hbit

/-- Leading zero bits of a `w`-bit word (`w` for the word zero). -/
def leadingZeros (w x : ℕ) : ℕ := w - Nat.size x

/-- The leading zeros of `a ^ b` count the common leading bits of `a` and `b`. -/
theorem le_leadingZeros_xor_iff (hlen : a.length = b.length) (hk : k ≤ 8 * a.length) :
    k ≤ leadingZeros (8 * a.length) (beNat a ^^^ beNat b) ↔ AgreeTo k a b := by
  have hlt : beNat a ^^^ beNat b < 2 ^ (8 * a.length) :=
    xor_lt_two_pow (beNat_lt a) (hlen ▸ beNat_lt b)
  have hsize : size (beNat a ^^^ beNat b) ≤ 8 * a.length := size_le.mpr hlt
  -- `k` leading zeros are a bound on the number, and so a fact about its high bits
  have hiff : k ≤ leadingZeros (8 * a.length) (beNat a ^^^ beNat b) ↔
      beNat a ^^^ beNat b < 2 ^ (8 * a.length - k) := by
    rw [← size_le, leadingZeros]
    omega
  rw [hiff]
  constructor
  · intro hx i hi
    have hbit : (beNat a ^^^ beNat b).testBit (8 * a.length - 1 - i) = false := by
      apply testBit_lt_two_pow
      exact lt_of_lt_of_le hx (Nat.pow_le_pow_right (by decide) (by omega))
    rw [testBit_xor, beNat_testBit a (by omega), hlen, beNat_testBit b (by omega)] at hbit
    simpa using hbit
  · intro h
    apply lt_pow_two_of_testBit
    intro j hj
    by_cases hj' : j < 8 * a.length
    · have hagree := h (8 * a.length - 1 - j) (by omega)
      rw [← beNat_testBit a (by omega), ← beNat_testBit b (by omega), ← hlen] at hagree
      have hidx : 8 * a.length - 1 - (8 * a.length - 1 - j) = j := by omega
      rw [hidx] at hagree
      simp [hagree]
    · apply testBit_lt_two_pow
      exact lt_of_lt_of_le hlt (Nat.pow_le_pow_right (by decide) (not_lt.mp hj'))

/-! ## §4 Little-endian words -/

/-- The number that a byte string denotes, least significant byte first. -/
def leNat : Bytes → ℕ
  | [] => 0
  | x :: xs => x.toNat + 256 * leNat xs

/-- The `n` low bytes of `v`, least significant byte first. -/
def leBytes : ℕ → ℕ → Bytes
  | 0, _ => []
  | n + 1, v => BitVec.ofNat 8 v :: leBytes n (v / 256)

@[simp] theorem leBytes_length (n v : ℕ) : (leBytes n v).length = n := by
  induction n generalizing v with
  | zero => rfl
  | succ n ih => simp [leBytes, ih]

theorem leNat_leBytes {n v : ℕ} (hv : v < 256 ^ n) : leNat (leBytes n v) = v := by
  induction n generalizing v with
  | zero =>
    have hv' : v = 0 := by simpa using hv
    simp [leBytes, leNat, hv']
  | succ n ih =>
    have hdiv : v / 256 < 256 ^ n := by
      rw [div_lt_iff_lt_mul (by decide)]
      simpa [pow_succ] using hv
    rw [leBytes, leNat, ih hdiv, toNat_ofNat]
    omega

/-- `binary.LittleEndian.Uint32`; `none` when the slice is too short. -/
def leUint32 (data : Bytes) : Option (BitVec 32) :=
  if 4 ≤ data.length then some (BitVec.ofNat 32 (leNat (data.take 4))) else none

theorem leUint32_leBytes (v : BitVec 32) (rest : Bytes) :
    leUint32 (leBytes 4 v.toNat ++ rest) = some v := by
  have hlen : 4 ≤ (leBytes 4 v.toNat ++ rest).length := by simp
  have htake : (leBytes 4 v.toNat ++ rest).take 4 = leBytes 4 v.toNat := take_left' (by simp)
  rw [leUint32, if_pos hlen, htake, leNat_leBytes (by have := v.isLt; omega), ofNat_toNat,
    setWidth_eq]

/-- `binary.LittleEndian.Uint64`; `none` when the slice is too short. -/
def leUint64 (data : Bytes) : Option (BitVec 64) :=
  if 8 ≤ data.length then some (BitVec.ofNat 64 (leNat (data.take 8))) else none

theorem leUint64_leBytes (v : BitVec 64) (rest : Bytes) :
    leUint64 (leBytes 8 v.toNat ++ rest) = some v := by
  have hlen : 8 ≤ (leBytes 8 v.toNat ++ rest).length := by simp
  have htake : (leBytes 8 v.toNat ++ rest).take 8 = leBytes 8 v.toNat := take_left' (by simp)
  rw [leUint64, if_pos hlen, htake, leNat_leBytes (by have := v.isLt; omega), ofNat_toNat,
    setWidth_eq]

/-! ## §5 The byte order of a host -/

/-- The order in which a host keeps the bytes of a word. -/
inductive Endian where
  | little
  | big
  deriving DecidableEq, Repr

def Endian.nat : Endian → Bytes → ℕ
  | .little, b => leNat b
  | .big, b => beNat b

def Endian.bytes : Endian → ℕ → ℕ → Bytes
  | .little, n, v => leBytes n v
  | .big, n, v => (leBytes n v).reverse

@[simp] theorem Endian.bytes_length (e : Endian) (n v : ℕ) : (e.bytes n v).length = n := by
  cases e <;> simp [Endian.bytes]

theorem beNat_concat (b : Bytes) (x : Byte) : beNat (b ++ [x]) = 256 * beNat b + x.toNat := by
  induction b with
  | nil => simp [beNat]
  | cons y ys ih =>
    rw [List.cons_append, beNat_cons, ih, beNat_cons, List.length_append, List.length_singleton]
    ring

theorem beNat_reverse (b : Bytes) : beNat b.reverse = leNat b := by
  induction b with
  | nil => rfl
  | cons x xs ih =>
    rw [reverse_cons, beNat_concat, ih, leNat]
    omega

theorem Endian.nat_bytes (e : Endian) {n v : ℕ} (hv : v < 256 ^ n) : e.nat (e.bytes n v) = v := by
  cases e with
  | little => exact leNat_leBytes hv
  | big => rw [Endian.nat, Endian.bytes, beNat_reverse, leNat_leBytes hv]

/-! ## §6 Go's `int` and slices -/

/-- What arithmetic on an `int` of `w` bits makes of the value `v`. -/
def wrapInt (w : ℕ) (v : ℤ) : ℤ := v.bmod (2 ^ w)

theorem wrapInt_eq (h₀ : -2 ^ 63 ≤ v) (h : v < 2 ^ 63) : wrapInt 64 v = v := by
  unfold wrapInt
  apply Int.bmod_eq_of_le <;> norm_num at h₀ h ⊢ <;> omega

theorem wrapInt_of_lt (h₀ : 0 ≤ v) (h : v < 2 ^ 63) : wrapInt 64 v = v :=
  wrapInt_eq (by omega) h

theorem wrapInt_lt (v : ℤ) : wrapInt 64 v < 2 ^ 63 := by
  have hlt : v.bmod (2 ^ 64) < ((2 ^ 64 : ℕ) + 1) / 2 := Int.bmod_lt (by norm_num)
  unfold wrapInt
  omega

theorem wrapInt_neg (h₀ : 2 ^ 63 ≤ v) (h : v < 2 ^ 64) : wrapInt 64 v < 0 := by
  unfold wrapInt
  have hmod : v % ((2 ^ 64 : ℕ) : ℤ) = v := Int.emod_eq_of_lt (by omega) (by exact_mod_cast h)
  rw [Int.bmod, hmod, if_neg (by norm_num at h₀ ⊢; omega)]
  norm_num at h ⊢
  omega

/-- `buf[low:]`; `none` when the bound is out of range. -/
def sliceFrom (buf : Bytes) (low : ℤ) : Option Bytes :=
  if 0 ≤ low ∧ low ≤ buf.length then some (buf.drop low.toNat) else none

theorem sliceFrom_append (a b : Bytes) : sliceFrom (a ++ b) a.length = some b := by
  simp [sliceFrom]

end AmneziaWG.Lib
