import AmneziaWG.Device.Noise.Handshake

/-!
# Timestamps of Initiations

`After` of `tai64n/tai64n.go` compares two timestamps byte by byte.  The low bits of the nanoseconds
are cleared, and a second is not a multiple of what is cleared.

## Main results

- `after_iff`: the comparison of bytes is the order of the numbers that the handshake compares.
- `stamp_monotone`: timestamps keep the order of the clock, and times that are `2 ^ 24` nanoseconds
  apart keep it strictly.
-/

namespace AmneziaWG.Device

open AmneziaWG.Lib BitVec Nat

/-! ## §1 Timestamps as bytes -/

def bytesCompare : Bytes → Bytes → Ordering
  | [], [] => .eq
  | [], _ :: _ => .lt
  | _ :: _, [] => .gt
  | x :: xs, y :: ys => (compare x.toNat y.toNat).then (bytesCompare xs ys)

/-- The twelve bytes of a `Timestamp`: the seconds, then the nanoseconds, both big-endian. -/
def timestampBytes (t : BitVec 96) : Bytes := Endian.bytes .big 12 t.toNat

def after (t₁ t₂ : Bytes) : Bool := bytesCompare t₁ t₂ = .gt

theorem bytesCompare_eq {a b : Bytes} (hlen : a.length = b.length) :
    bytesCompare a b = compare (beNat a) (beNat b) := by
  induction a generalizing b with
  | nil => simp [List.eq_nil_of_length_eq_zero hlen.symm, bytesCompare]
  | cons x xs ih =>
    cases b with
    | nil => simp at hlen
    | cons y ys =>
      have hlen' : xs.length = ys.length := by simpa using hlen
      have hx := beNat_lt xs
      have hy := beNat_lt ys
      rw [hlen'] at hx
      rw [bytesCompare, ih hlen', beNat_cons, beNat_cons, hlen']
      -- the first byte outweighs all others
      rcases Nat.lt_trichotomy x.toNat y.toNat with h | h | h
      · have hmul := mul_le_mul_left (2 ^ (8 * ys.length)) (succ_le_of_lt h)
        have hlt : 2 ^ (8 * ys.length) * x.toNat + beNat xs <
            2 ^ (8 * ys.length) * y.toNat + beNat ys := by
          rw [Nat.mul_succ] at hmul
          omega
        rw [Nat.compare_eq_lt.mpr h, Nat.compare_eq_lt.mpr hlt]
        rfl
      · simp [h, compare_eq_ite_lt]
      · have hmul := mul_le_mul_left (2 ^ (8 * ys.length)) (succ_le_of_lt h)
        have hlt : 2 ^ (8 * ys.length) * y.toNat + beNat ys <
            2 ^ (8 * ys.length) * x.toNat + beNat xs := by
          rw [Nat.mul_succ] at hmul
          omega
        rw [Nat.compare_eq_gt.mpr h, Nat.compare_eq_gt.mpr hlt]
        rfl

theorem beNat_timestampBytes (t : BitVec 96) : beNat (timestampBytes t) = t.toNat :=
  Endian.nat_bytes (n := 12) .big (lt_of_lt_of_eq t.isLt (by decide))

/-- The comparison of bytes is the order of the numbers that the handshake compares. -/
theorem after_iff (t₁ t₂ : BitVec 96) :
    after (timestampBytes t₁) (timestampBytes t₂) = true ↔ t₂ < t₁ := by
  have hlen : (timestampBytes t₁).length = (timestampBytes t₂).length := by simp [timestampBytes]
  rw [after, decide_eq_true_iff, bytesCompare_eq hlen, Nat.compare_eq_gt, beNat_timestampBytes,
    beNat_timestampBytes, BitVec.lt_def]

/-! ## §2 The order of the clock -/

theorem and_not_whitenerMask (nano : BitVec 32) :
    (nano &&& ~~~(0x1000000 - 1 : BitVec 32)).toNat = nano.toNat / 2 ^ 24 * 2 ^ 24 := by
  have hshift : nano &&& ~~~(0x1000000 - 1 : BitVec 32) = (nano >>> 24) <<< 24 := by
    have hmask : ∀ i : Fin 32, (~~~(0x1000000 - 1 : BitVec 32))[i] =
        decide (24 ≤ i.val) := by decide
    ext i hi
    have hbit := hmask ⟨i, hi⟩
    simp only [Fin.getElem_fin] at hbit
    rw [BitVec.getElem_and, hbit]
    by_cases hlow : i < 24
    · simp [hlow]
    · simp [hlow, Nat.add_sub_cancel' (Nat.not_lt.mp hlow), Nat.not_lt.mp hlow,
        BitVec.getLsbD_eq_getElem hi]
  rw [hshift, BitVec.toNat_shiftLeft, BitVec.toNat_ushiftRight, Nat.shiftLeft_eq,
    Nat.shiftRight_eq_div_pow]
  have := nano.isLt
  omega

theorem toNat_tai64nStamp {now : ℤ} (h₀ : 0 ≤ now / 10 ^ 9) (h : now / 10 ^ 9 < 2 ^ 61) :
    ((tai64nStamp now).toNat : ℤ) =
      (2 ^ 62 + 10 + now / 10 ^ 9) * 2 ^ 32 + now % 10 ^ 9 / 2 ^ 24 * 2 ^ 24 := by
  have hsecs : ((0x400000000000000a + BitVec.ofInt 64 (now / 10 ^ 9)).toNat : ℤ) =
      2 ^ 62 + 10 + now / 10 ^ 9 := by
    rw [BitVec.toNat_add, BitVec.toNat_ofInt]
    generalize now / 10 ^ 9 = s at *
    rw [show BitVec.toNat (0x400000000000000a : BitVec 64) = 2 ^ 62 + 10 from rfl]
    omega
  have hnano : ((BitVec.ofInt 32 (now % 10 ^ 9)).toNat : ℤ) = now % 10 ^ 9 := by
    rw [BitVec.toNat_ofInt]
    omega
  rw [tai64nStamp, BitVec.toNat_append, ← Nat.shiftLeft_add_eq_or_of_lt (BitVec.isLt _),
    Nat.shiftLeft_eq, and_not_whitenerMask, Nat.cast_add, Nat.cast_mul, hsecs]
  omega

/-- Timestamps keep the order of the clock.  Times that are `2 ^ 24` nanoseconds apart have
different timestamps, on both sides of the end of a second as well. -/
theorem stamp_monotone (t₁ t₂ : ℤ) (hle : t₁ ≤ t₂) (h₁ : 0 ≤ t₁ / 10 ^ 9)
    (h₂ : t₂ / 10 ^ 9 < 2 ^ 61) :
    after (timestampBytes (tai64nStamp t₁)) (timestampBytes (tai64nStamp t₂)) = false ∧
      (2 ^ 24 ≤ t₂ - t₁ →
        after (timestampBytes (tai64nStamp t₂)) (timestampBytes (tai64nStamp t₁)) = true) := by
  have hdiv : t₁ / 10 ^ 9 ≤ t₂ / 10 ^ 9 := Int.ediv_le_ediv (by decide) hle
  have hstamp₁ := toNat_tai64nStamp h₁ (by omega)
  have hstamp₂ := toNat_tai64nStamp (h₁.trans hdiv) h₂
  rw [← Bool.not_eq_true, after_iff, after_iff, lt_def, lt_def]
  omega

theorem stamp_monotone_second :
    after (timestampBytes (tai64nStamp 1016777216))
      (timestampBytes (tai64nStamp 999999999)) = true :=
  (stamp_monotone 999999999 1016777216 (by decide) (by decide) (by decide)).2 (by decide)

end AmneziaWG.Device
