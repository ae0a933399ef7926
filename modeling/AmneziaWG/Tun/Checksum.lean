import AmneziaWG.Lib.OnesComplement

/-!
# The Internet Checksum

Embedding of `tun/checksum.go`.  Words are added in the byte order of the host, in groups
with one chain of carries each.

## Main results

- `checksumNoFold_represents`: the unfolded sum stands for the sum of the big-endian words.
- `checksum_isInternetChecksum`: on hosts of either byte order the result is that of RFC 1071.
-/

namespace AmneziaWG.Tun

open AmneziaWG.Lib List BitVec Nat

/-! ## §1 The routine -/

/-- `bits.Add64`: the sum and the carry. -/
def add64 (x y : BitVec 64) (carry : Bool) : BitVec 64 × Bool :=
  let sum := x.toNat + y.toNat + carry.toNat
  (BitVec.ofNat 64 sum, decide (2 ^ 64 ≤ sum))

/-- A word of `n` bytes in the byte order of the host. -/
def nativeWord (e : Endian) (n : ℕ) (b : Bytes) : BitVec 64 :=
  BitVec.ofNat 64 (e.nat (b.take n))

/-- `n` words of eight bytes, with the carry of each addition passed on to the next. -/
def addWords (e : Endian) : ℕ → BitVec 64 → Bool → Bytes → BitVec 64 × Bool
  | 0, ac, carry, _ => (ac, carry)
  | n + 1, ac, carry, b =>
    let (ac, carry) := add64 ac (nativeWord e 8 b) carry
    addWords e n ac carry (b.drop 8)

/-- `ac += carry`. -/
def addCarry (r : BitVec 64 × Bool) : BitVec 64 :=
  r.1 + BitVec.ofNat 64 r.2.toNat

/-- `if len(b) >= 8*n { … }`. -/
def addGroup (e : Endian) (n : ℕ) (ac : BitVec 64) (b : Bytes) : BitVec 64 × Bytes :=
  if b.length ≥ 8 * n then (addCarry (addWords e n ac false b), b.drop (8 * n)) else (ac, b)

/-- `for len(b) >= 128 { … }`. -/
def addBlocks (e : Endian) : ℕ → BitVec 64 → Bytes → BitVec 64 × Bytes
  | 0, ac, b => (ac, b)
  | fuel + 1, ac, b =>
    if b.length ≥ 128 then
      let (ac, b) := addGroup e 16 ac b
      addBlocks e fuel ac b
    else (ac, b)

/-- `if len(b) >= n { … }`, for a word of `n` bytes. -/
def addShort (e : Endian) (n : ℕ) (ac : BitVec 64) (b : Bytes) : BitVec 64 × Bytes :=
  if b.length ≥ n then (addCarry (add64 ac (nativeWord e n b) false), b.drop n) else (ac, b)

/-- Write a word in the byte order of the host and read it as big-endian. -/
def swapNative (e : Endian) (x : BitVec 64) : BitVec 64 :=
  BitVec.ofNat 64 (beNat (e.bytes 8 x.toNat))

def checksumNoFold (e : Endian) (b : Bytes) (initial : BitVec 64) : BitVec 64 :=
  let ac := swapNative e initial
  let (ac, b) := addBlocks e (b.length / 128) ac b
  let (ac, b) := addGroup e 8 ac b
  let (ac, b) := addGroup e 4 ac b
  let (ac, b) := addGroup e 2 ac b
  let (ac, b) := addGroup e 1 ac b
  let (ac, b) := addShort e 4 ac b
  let (ac, b) := addShort e 2 ac b
  let ac := if b.length = 1 then addCarry (add64 ac (nativeWord e 2 (b ++ [0])) false) else ac
  swapNative e ac

/-- `ac = (ac >> 16) + (ac & 0xffff)`. -/
def foldOnce (ac : BitVec 64) : BitVec 64 := (ac >>> 16) + (ac &&& 0xffff)

def checksum (e : Endian) (b : Bytes) (initial : BitVec 64) : BitVec 16 :=
  (foldOnce (foldOnce (foldOnce (foldOnce (checksumNoFold e b initial))))).setWidth 16

def pseudoHeaderChecksumNoFold (e : Endian) (protocol : Byte) (srcAddr dstAddr : Bytes)
    (totalLen : BitVec 16) : BitVec 64 :=
  let sum := checksumNoFold e srcAddr 0
  let sum := checksumNoFold e dstAddr sum
  let sum := checksumNoFold e [0, protocol] sum
  checksumNoFold e (be16 totalLen) sum

/-! ## §2 Additions with carry -/

variable {e : Endian}
variable {r : BitVec 64 × Bytes} {s n total : ℕ} {b : Bytes}

/-- An accumulator and its pending carry stand for `s`, and the carry can be added. -/
structure Accumulates (r : BitVec 64 × Bool) (s : ℕ) : Prop where
  represents : Represents 65535 (r.1.toNat + r.2.toNat) s
  noOverflow : r.1.toNat + r.2.toNat < 2 ^ 64

theorem add64_value (x y : BitVec 64) (carry : Bool) :
    (add64 x y carry).1.toNat + (add64 x y carry).2.toNat =
      (x.toNat + y.toNat + carry.toNat) / 2 ^ 64 + (x.toNat + y.toNat + carry.toNat) % 2 ^ 64 := by
  have hx := x.isLt
  have hy := y.isLt
  have hcarry : carry.toNat ≤ 1 := Bool.toNat_le carry
  have hbit : (decide (2 ^ 64 ≤ x.toNat + y.toNat + carry.toNat)).toNat =
      (x.toNat + y.toNat + carry.toNat) / 2 ^ 64 := by
    by_cases h : 2 ^ 64 ≤ x.toNat + y.toNat + carry.toNat
    · rw [decide_eq_true h, Bool.toNat_true]
      omega
    · rw [decide_eq_false h, Bool.toNat_false]
      omega
  simp only [add64, toNat_ofNat, hbit]
  omega

theorem represents_endAround (x : ℕ) : Represents 65535 (x / 2 ^ 64 + x % 2 ^ 64) x :=
  (represents_fold 64 x).of_dvd (by norm_num)

/-- One `bits.Add64` in a chain: a carry is followed by a word that is not all ones. -/
theorem Accumulates.add64 {r : BitVec 64 × Bool} {t : ℕ} (h : Accumulates r s) {w : BitVec 64}
    (hw : Represents 65535 w.toNat t) : Accumulates (add64 r.1 w r.2) (s + t) := by
  have hw' := w.isLt
  have hroom := h.noOverflow
  have hsum : r.1.toNat + w.toNat + r.2.toNat = (r.1.toNat + r.2.toNat) + w.toNat := by omega
  constructor
  · rw [add64_value, hsum]
    exact (represents_endAround _).trans (h.represents.add hw)
  · rw [add64_value]
    omega

theorem Accumulates.addCarry {r : BitVec 64 × Bool} (h : Accumulates r s) :
    Represents 65535 (addCarry r).toNat s := by
  have hroom := h.noOverflow
  have hvalue : (Tun.addCarry r).toNat = r.1.toNat + r.2.toNat := by
    rw [Tun.addCarry, toNat_add, toNat_ofNat]
    omega
  rw [hvalue]
  exact h.represents

theorem accumulates_start {ac : BitVec 64} (h : Represents 65535 ac.toNat s) :
    Accumulates (ac, false) s := by
  have hac := ac.isLt
  exact ⟨by simpa using h, by simpa using hac⟩

/-- A word of the host stands for the big-endian words in it. -/
theorem nativeWord_represents (e : Endian) (hn : Even n) (h8 : n ≤ 8) (hb : n ≤ b.length) :
    Represents 65535 (nativeWord e n b).toNat (e.factor * wordSum (b.take n)) := by
  have hlen : (b.take n).length = n := by
    rw [length_take]
    omega
  have hlt : e.nat (b.take n) < 2 ^ 64 := by
    have hbe := beNat_lt (b.take n)
    have hle := beNat_lt (b.take n).reverse
    rw [beNat_reverse, length_reverse] at hle
    have hpow : 2 ^ (8 * (b.take n).length) ≤ 2 ^ 64 := Nat.pow_le_pow_right (by decide) (by omega)
    cases e with
    | little => exact lt_of_lt_of_le hle hpow
    | big => exact lt_of_lt_of_le hbe hpow
  rw [nativeWord, toNat_ofNat, mod_eq_of_lt hlt]
  exact represents_native e (by rw [hlen]; exact hn)

theorem addWords_accumulates {r : BitVec 64 × Bool} (h : Accumulates r s) (hb : 8 * n ≤ b.length) :
    Accumulates (addWords e n r.1 r.2 b) (s + e.factor * wordSum (b.take (8 * n))) := by
  -- the induction is on the number of words, and passes the carry on
  induction n generalizing r s b with
  | zero => simpa [addWords, wordSum] using h
  | succ n ih =>
    have hword := nativeWord_represents e (n := 8) (by decide) (by decide) (by omega : 8 ≤ b.length)
    have hrest := ih (h.add64 hword) (by rw [length_drop]; omega : 8 * n ≤ (b.drop 8).length)
    have hsplit : b.take (8 * (n + 1)) = b.take 8 ++ (b.drop 8).take (8 * n) := by
      rw [Nat.mul_succ, Nat.add_comm, List.take_add]
    have heven : Even (b.take 8).length := by
      rw [length_take, min_eq_left (by omega)]
      decide
    rw [hsplit, wordSum_append _ heven, Nat.mul_add, ← Nat.add_assoc]
    exact hrest

/-! ## §3 The whole sum -/

/-- What has been accumulated and what is left add up to `total`. -/
def Sums (e : Endian) (total : ℕ) (r : BitVec 64 × Bytes) : Prop :=
  Represents 65535 (r.1.toNat + e.factor * wordSum r.2) total

theorem Sums.consume {ac ac' : BitVec 64} (h : Sums e total (ac, b)) (hn : Even n)
    (hb : n ≤ b.length)
    (hac : Represents 65535 ac'.toNat (ac.toNat + e.factor * wordSum (b.take n))) :
    Sums e total (ac', b.drop n) := by
  have heven : Even (b.take n).length := by
    rw [length_take, min_eq_left hb]
    exact hn
  have hsplit : wordSum b = wordSum (b.take n) + wordSum (b.drop n) := by
    conv_lhs => rw [← take_append_drop n b]
    exact wordSum_append _ heven
  unfold Sums at h ⊢
  rw [hsplit, Nat.mul_add, ← Nat.add_assoc] at h
  exact (hac.add (Represents.refl _ _)).trans h

theorem Sums.addGroup (h : Sums e total r) : Sums e total (addGroup e n r.1 r.2) := by
  unfold Tun.addGroup
  split_ifs with hb
  · apply h.consume ((even_mul).mpr (Or.inl (by decide))) hb
    exact (addWords_accumulates (accumulates_start (Represents.refl _ _)) hb).addCarry
  · exact h

theorem Sums.addShort (h : Sums e total r) (hn : Even n) (h8 : n ≤ 8) :
    Sums e total (addShort e n r.1 r.2) := by
  unfold Tun.addShort
  split_ifs with hb
  · apply h.consume hn hb
    have hstart : Accumulates (r.1, false) r.1.toNat := accumulates_start (Represents.refl _ _)
    exact (hstart.add64 (nativeWord_represents e hn h8 hb)).addCarry
  · exact h

theorem Sums.addBlocks (h : Sums e total r) (fuel : ℕ) :
    Sums e total (addBlocks e fuel r.1 r.2) := by
  induction fuel generalizing r with
  | zero => exact h
  | succ fuel ih =>
    unfold Tun.addBlocks
    split_ifs with hb
    · exact ih h.addGroup
    · exact h

theorem addGroup_length (e : Endian) (n : ℕ) (h : r.2.length < 8 * n + 8 * n) :
    (addGroup e n r.1 r.2).2.length < 8 * n := by
  unfold addGroup
  split_ifs with hb
  · change (r.2.drop (8 * n)).length < 8 * n
    rw [length_drop]
    omega
  · exact lt_of_not_ge hb

theorem addShort_length (e : Endian) (n : ℕ) (h : r.2.length < n + n) :
    (addShort e n r.1 r.2).2.length < n := by
  unfold addShort
  split_ifs with hb
  · change (r.2.drop n).length < n
    rw [length_drop]
    omega
  · exact lt_of_not_ge hb

theorem addBlocks_length (e : Endian) (fuel : ℕ) (ac : BitVec 64)
    (hfuel : b.length < 128 * fuel + 128) : (addBlocks e fuel ac b).2.length < 128 := by
  induction fuel generalizing ac b with
  | zero => simpa [addBlocks] using hfuel
  | succ fuel ih =>
    unfold addBlocks
    split_ifs with hb
    · have hdrop : (addGroup e 16 ac b).2.length = b.length - 128 := by
        rw [addGroup, if_pos hb]
        exact length_drop
      exact ih _ (lt_of_eq_of_lt hdrop (by omega))
    · exact lt_of_not_ge hb

theorem Sums.last (h : Sums e total r) (hlen : r.2.length < 2) :
    Represents 65535
      (if r.2.length = 1 then addCarry (add64 r.1 (nativeWord e 2 (r.2 ++ [0])) false)
      else r.1).toNat total := by
  unfold Sums at h
  split_ifs with hone
  · obtain ⟨x, hx⟩ := length_eq_one_iff.mp hone
    have hword := nativeWord_represents e (n := 2) (by decide) (by decide)
      (by rw [length_append, hone]; decide : 2 ≤ (r.2 ++ [0]).length)
    have hsame : wordSum ((r.2 ++ [0]).take 2) = wordSum r.2 := by
      rw [hx]
      simp [wordSum]
    rw [hsame] at hword
    exact ((accumulates_start (Represents.refl 65535 r.1.toNat)).add64 hword).addCarry.trans h
  · have hnil : r.2 = [] := eq_nil_of_length_eq_zero (by omega)
    simpa [hnil, wordSum] using h

theorem swapNative_represents (x : BitVec 64) :
    Represents 65535 (swapNative e x).toNat (e.factor * x.toNat) := by
  have hx := x.isLt
  have hlen : (e.bytes 8 x.toNat).length = 8 := e.bytes_length 8 x.toNat
  have heven : Even (e.bytes 8 x.toNat).length := by
    rw [hlen]
    decide
  have hlt : beNat (e.bytes 8 x.toNat) < 2 ^ 64 := by
    have := beNat_lt (e.bytes 8 x.toNat)
    rwa [hlen] at this
  have hnative := represents_native e heven
  rw [e.nat_bytes (by omega)] at hnative
  rw [swapNative, toNat_ofNat, mod_eq_of_lt hlt]
  apply (represents_beNat heven).trans
  exact (represents_factor_factor e _).symm.trans (hnative.symm.mul_left e.factor_ne_zero)

/-- The groups, from the largest to the smallest, leave at most one byte. -/
theorem Sums.groups {initial : BitVec 64} (h : Sums e total (swapNative e initial, b)) :
    ∃ r : BitVec 64 × Bytes, Sums e total r ∧ r.2.length < 2 ∧
      checksumNoFold e b initial = swapNative e
        (if r.2.length = 1 then addCarry (add64 r.1 (nativeWord e 2 (r.2 ++ [0])) false)
          else r.1) := by
  have h₀ := h.addBlocks (b.length / 128)
  have hlen₀ := addBlocks_length e (b.length / 128) (swapNative e initial)
    (by omega : b.length < 128 * (b.length / 128) + 128)
  simp only [checksumNoFold]
  -- each stage is named before the next, so that terms stay small
  generalize Tun.addBlocks e (b.length / 128) (swapNative e initial) b = r₀ at h₀ hlen₀ ⊢
  have h₁ := h₀.addGroup (n := 8)
  have hlen₁ := addGroup_length e 8 hlen₀
  generalize Tun.addGroup e 8 r₀.1 r₀.2 = r₁ at h₁ hlen₁ ⊢
  have h₂ := h₁.addGroup (n := 4)
  have hlen₂ := addGroup_length e 4 hlen₁
  generalize Tun.addGroup e 4 r₁.1 r₁.2 = r₂ at h₂ hlen₂ ⊢
  have h₃ := h₂.addGroup (n := 2)
  have hlen₃ := addGroup_length e 2 hlen₂
  generalize Tun.addGroup e 2 r₂.1 r₂.2 = r₃ at h₃ hlen₃ ⊢
  have h₄ := h₃.addGroup (n := 1)
  have hlen₄ := addGroup_length e 1 hlen₃
  generalize Tun.addGroup e 1 r₃.1 r₃.2 = r₄ at h₄ hlen₄ ⊢
  have h₅ := h₄.addShort (n := 4) (by decide) (by decide)
  have hlen₅ := addShort_length e 4 hlen₄
  generalize Tun.addShort e 4 r₄.1 r₄.2 = r₅ at h₅ hlen₅ ⊢
  exact ⟨_, h₅.addShort (n := 2) (by decide) (by decide), addShort_length e 2 hlen₅, rfl⟩

/-- The unfolded sum stands for the sum of `initial` and the big-endian words. -/
theorem checksumNoFold_represents (b : Bytes) (initial : BitVec 64) :
    Represents 65535 (checksumNoFold e b initial).toNat (initial.toNat + wordSum b) := by
  have hstart : Sums e (e.factor * (initial.toNat + wordSum b)) (swapNative e initial, b) := by
    unfold Sums
    rw [Nat.mul_add]
    exact (swapNative_represents initial).add (Represents.refl _ _)
  obtain ⟨r, hsums, hlen, heq⟩ := hstart.groups
  rw [heq]
  apply (swapNative_represents _).trans
  exact ((hsums.last hlen).mul_left e.factor_ne_zero).trans (represents_factor_factor e _)

theorem pseudoHeaderChecksumNoFold_represents (protocol : Byte) (srcAddr dstAddr : Bytes)
    (totalLen : BitVec 16) :
    Represents 65535 (pseudoHeaderChecksumNoFold e protocol srcAddr dstAddr totalLen).toNat
      (wordSum srcAddr + wordSum dstAddr + protocol.toNat + totalLen.toNat) := by
  have hsrc := checksumNoFold_represents (e := e) srcAddr 0
  have hdst := (checksumNoFold_represents (e := e) dstAddr _).trans (hsrc.add (Represents.refl _ _))
  have hproto :=
    (checksumNoFold_represents (e := e) [0, protocol] _).trans (hdst.add (Represents.refl _ _))
  have hlen :=
    (checksumNoFold_represents (e := e) (be16 totalLen) _).trans (hproto.add (Represents.refl _ _))
  rw [wordSum_be16] at hlen
  simpa [wordSum, pseudoHeaderChecksumNoFold] using hlen

/-! ## §4 Folding -/

theorem foldOnce_toNat (ac : BitVec 64) :
    (foldOnce ac).toNat = ac.toNat / 2 ^ 16 + ac.toNat % 2 ^ 16 := by
  have hac := ac.isLt
  have hmask : (ac &&& 0xffff).toNat = ac.toNat % 2 ^ 16 := by
    rw [toNat_and]
    exact and_two_pow_sub_one_eq_mod ac.toNat 16
  rw [foldOnce, toNat_add, toNat_ushiftRight, hmask, shiftRight_eq_div_pow]
  omega

/-- Four rounds are enough for 64 bits. -/
theorem checksum_represents (b : Bytes) (initial : BitVec 64) :
    Represents 65535 (checksum e b initial).toNat (initial.toNat + wordSum b) := by
  have hstart := checksumNoFold_represents (e := e) b initial
  have hstep : ∀ (ac : BitVec 64) (s : ℕ), Represents 65535 ac.toNat s →
      Represents 65535 (foldOnce ac).toNat s := by
    intro ac s h
    rw [foldOnce_toNat]
    exact (represents_fold 16 ac.toNat).trans h
  have hfour := hstep _ _ (hstep _ _ (hstep _ _ (hstep _ _ hstart)))
  rw [checksum, toNat_setWidth, mod_eq_of_lt]
  · exact hfour
  · have hlt := (checksumNoFold e b initial).isLt
    rw [foldOnce_toNat, foldOnce_toNat, foldOnce_toNat, foldOnce_toNat]
    omega

theorem checksum_le (b : Bytes) (initial : BitVec 64) : (checksum e b initial).toNat ≤ 65535 := by
  have := (checksum e b initial).isLt
  omega

/-- `checksumRef` of the tests, with an initial value of any size: the sum of the words, folded. -/
def checksumRef (b : Bytes) (initial : ℕ) : ℕ := fold16 (initial + wordSum b)

theorem checksum_eq_of_sum {c : Bytes} {initial initial' : BitVec 64}
    (h : Represents 65535 (initial.toNat + wordSum b) (initial'.toNat + wordSum c)) :
    checksum e b initial = checksum e c initial' := by
  apply eq_of_toNat_eq
  exact ((checksum_represents b initial).trans h).unique (checksum_represents c initial')
    (checksum_le b initial)
    (checksum_le c initial')

theorem checksum_eq_top_iff (b : Bytes) (initial : BitVec 64) : checksum e b initial = 0xffff ↔
      initial.toNat + wordSum b ≠ 0 ∧ (initial.toNat + wordSum b) % 65535 = 0 := by
  rw [← toNat_inj]
  exact (checksum_represents b initial).eq_top_iff (checksum_le b initial) (by decide)

theorem complement_eq_zero_iff (v : BitVec 16) : ~~~v = 0 ↔ v = 0xffff := by
  have hv := v.isLt
  have htop : (0xffff : BitVec 16).toNat = 65535 := rfl
  have hzero : (0 : BitVec 16).toNat = 0 := rfl
  rw [← toNat_inj, ← toNat_inj, toNat_not, htop, hzero]
  omega

/-- A string into which the complement of its checksum has been written sums up to the top word. -/
theorem checksum_patch_complement {off : ℕ} (initial : BitVec 64) (heven : Even off)
    (h : off + 2 ≤ b.length) (hzero : be16At b off = 0) :
    checksum e (patch b off (be16 (~~~checksum e b initial))) initial = 0xffff := by
  have hrep := checksum_represents (e := e) b initial
  have hle := checksum_le (e := e) b initial
  have hclear := wordSum_clear heven h
  rw [hzero] at hclear
  have hsum : initial.toNat + wordSum (patch b off (be16 (~~~checksum e b initial))) =
      initial.toNat + wordSum b + (65535 - (checksum e b initial).toNat) := by
    rw [wordSum_patch _ heven h, toNat_not, hclear]
    simp
    omega
  rw [checksum_eq_top_iff, hsum]
  have hmod : (checksum e b initial).toNat % 65535 = (initial.toNat + wordSum b) % 65535 :=
    hrep.modEq
  have hzeroIff := hrep.zero_iff
  omega

/-- **The Internet checksum.**  On either host `checksum` is the folded sum of RFC 1071, which is
zero only for zeros, and a string of even length can be summed first. -/
theorem checksum_isInternetChecksum (e : Endian) (b : Bytes) (initial : BitVec 64) :
    (checksum e b initial).toNat = checksumRef b initial.toNat ∧
      (checksum e b initial = 0 ↔ initial = 0 ∧ ∀ x ∈ b, x = 0) ∧
      ∀ c : Bytes, Even b.length → checksum e (b ++ c) initial =
        checksum e c (checksumNoFold e b initial) := by
  have hrep := checksum_represents (e := e) b initial
  refine ⟨?_, ?_, ?_⟩
  · obtain ⟨hfold, hle⟩ := fold16_represents (initial.toNat + wordSum b)
    exact hrep.unique hfold (checksum_le b initial) hle
  · have hzero : ∀ {w : ℕ} (v : BitVec w), v = 0 ↔ v.toNat = 0 := fun v => by
      rw [← toNat_inj]
      simp
    rw [hzero, hrep.zero_iff, Nat.add_eq_zero_iff, wordSum_eq_zero_iff, hzero]
  · intro c heven
    apply checksum_eq_of_sum
    rw [wordSum_append _ heven, ← add_assoc]
    exact (checksumNoFold_represents b initial).symm.add (Represents.refl _ _)

theorem checksum_isInternetChecksum_split :
    checksum .little ([0x12, 0x34] ++ [0x56]) 7 = checksum .little [0x56]
      (checksumNoFold .little [0x12, 0x34] 7) :=
  (checksum_isInternetChecksum .little [0x12, 0x34] 7).2.2 [0x56] (by decide)

end AmneziaWG.Tun
