import AmneziaWG.Lib.Buffer

/-!
# Fields of Packets

Fields at fixed offsets of a byte string, and overwriting them.  A field is not changed by a
patch that does not overlap it, which is all that proofs about headers need.
-/

namespace AmneziaWG.Lib

open List BitVec Nat

/-! ## §1 Reading -/

/-- `b[i]`; zero behind the end. -/
def byteAt (b : Bytes) (i : ℕ) : Byte := b.getD i 0

/-- `b[off:off+n]`, as far as it exists. -/
def field (b : Bytes) (off n : ℕ) : Bytes := (b.drop off).take n

/-- `binary.BigEndian.Uint16(b[off:])`. -/
def be16At (b : Bytes) (off : ℕ) : BitVec 16 := BitVec.ofNat 16 (beNat (field b off 2))

/-- `binary.BigEndian.Uint32(b[off:])`. -/
def be32At (b : Bytes) (off : ℕ) : BitVec 32 := BitVec.ofNat 32 (beNat (field b off 4))

/-- `b[low:high]`; `none` when a bound is out of range.  Go bounds `high` by the capacity: a slice
that ends before its array is given as `b ++ spare`, with what is behind it. -/
def sliceRange (b : Bytes) (low high : ℕ) : Option Bytes :=
  if low ≤ high ∧ high ≤ b.length then some (field b low (high - low)) else none

/-- `binary.BigEndian.Uint16(b[off:])`; `none` when the slice is too short. -/
def readBE16 (b : Bytes) (off : ℕ) : Option (BitVec 16) :=
  if off + 2 ≤ b.length then some (be16At b off) else none

/-- `binary.BigEndian.Uint32(b[off:])`; `none` when the slice is too short. -/
def readBE32 (b : Bytes) (off : ℕ) : Option (BitVec 32) :=
  if off + 4 ≤ b.length then some (be32At b off) else none

theorem field_getElem? (b : Bytes) (off n i : ℕ) :
    (field b off n)[i]? = if i < n then b[off + i]? else none := by
  simp [field, getElem?_take, getElem?_drop]

variable {a b src : Bytes} {off n i k : ℕ}

theorem field_congr
    (h : ∀ i, off ≤ i → i < off + n → a[i]? = b[i]?) : field a off n = field b off n := by
  apply ext_getElem?
  intro i
  simp only [field_getElem?]
  split_ifs with hi
  · exact h _ (by omega) (by omega)
  · rfl

theorem byteAt_congr (h : a[i]? = b[i]?) : byteAt a i = byteAt b i := by
  rw [byteAt, byteAt, getD_eq_getElem?_getD, getD_eq_getElem?_getD, h]

theorem getElem?_of_lt (h : i < b.length) : b[i]? = some (byteAt b i) := by
  simp [byteAt, List.getElem?_eq_getElem h]

theorem field_length (h : off + n ≤ b.length) : (field b off n).length = n := by
  simp only [field, length_take, length_drop]
  omega

theorem sliceRange_eq {low high : ℕ} (hlow : low ≤ high) (hhigh : high ≤ b.length) :
    sliceRange b low high = some (field b low (high - low)) :=
  if_pos ⟨hlow, hhigh⟩

theorem field_append_left (b : Bytes) (h : off + n ≤ a.length) :
    field (a ++ b) off n = field a off n := by
  apply ext_getElem?
  intro i
  simp only [field_getElem?]
  split_ifs with hi
  · rw [getElem?_append_left (by omega)]
  · rfl

theorem sliceRange_append_left (b : Bytes) {low high : ℕ} (hlow : low ≤ high)
    (hhigh : high ≤ a.length) :
    sliceRange (a ++ b) low high = some (field a low (high - low)) := by
  rw [sliceRange_eq hlow (by rw [length_append]; omega), field_append_left b (by omega)]

theorem byteAt_append_left (b : Bytes) (h : i < a.length) : byteAt (a ++ b) i = byteAt a i := by
  simp [byteAt, getElem?_append_left h]

theorem byteAt_take (h : i < n) : byteAt (b.take n) i = byteAt b i := by
  simp [byteAt, h]

theorem field_take (h : off + n ≤ k) : field (b.take k) off n = field b off n := by
  apply ext_getElem?
  intro i
  simp only [field_getElem?, getElem?_take]
  split_ifs <;> first | rfl | omega

theorem field_field (b : Bytes) {m : ℕ} (h : k + m ≤ n) :
    field (field b off n) k m = field b (off + k) m := by
  apply ext_getElem?
  intro i
  rw [field_getElem?, field_getElem?, field_getElem?]
  by_cases hi : i < m
  · rw [if_pos hi, if_pos hi, if_pos (by omega), add_assoc]
  · rw [if_neg hi, if_neg hi]

theorem be16At_field (b : Bytes) (h : k + 2 ≤ n) :
    be16At (field b off n) k = be16At b (off + k) := by
  rw [be16At, be16At, field_field b h]

/-! ## §2 Overwriting -/

/-- `copy(b[off:], src)`, where `src` fits; a patch that does not fit changes nothing. -/
def patch (b : Bytes) (off : ℕ) (src : Bytes) : Bytes := (writeAt b off src).getD b

@[simp] theorem patch_length (b : Bytes) (off : ℕ) (src : Bytes) :
    (patch b off src).length = b.length := by
  unfold patch
  cases h : writeAt b off src with
  | none => rfl
  | some b' => exact writeAt_length h

theorem writeAt_eq_patch (h : off + src.length ≤ b.length) :
    writeAt b off src = some (patch b off src) := by
  rw [patch, writeAt, if_pos h]
  rfl

theorem patch_eq (h : off + src.length ≤ b.length) :
    patch b off src = b.take off ++ (src ++ b.drop (off + src.length)) := by
  rw [patch, writeAt, if_pos h]
  rfl

theorem patch_getElem?_of_outside (b : Bytes)
    (h : i < off ∨ off + src.length ≤ i) : (patch b off src)[i]? = b[i]? := by
  by_cases hfit : off + src.length ≤ b.length
  · rw [patch_eq hfit]
    have htake : (b.take off).length = off := by
      rw [length_take]
      omega
    rcases h with h | h
    · rw [getElem?_append_left (by omega), getElem?_take_of_lt h]
    · rw [getElem?_append_right (by omega), getElem?_append_right (by omega), getElem?_drop, htake]
      congr 1
      omega
  · rw [patch, writeAt, if_neg hfit]
    rfl

theorem patch_getElem?_of_inside
    (hfit : off + src.length ≤ b.length) (hlow : off ≤ i) (hhigh : i < off + src.length) :
    (patch b off src)[i]? = src[i - off]? := by
  have htake : (b.take off).length = off := by
    rw [length_take]
    omega
  rw [patch_eq hfit, getElem?_append_right (by omega), getElem?_append_left (by omega), htake]

theorem patch_field_getElem? {start : ℕ} (ha : start + n ≤ a.length)
    (hb : off + n ≤ b.length) (hlow : off ≤ i) (hhigh : i < off + n) :
    (patch b off (field a start n))[i]? = a[start + (i - off)]? := by
  have hlen := field_length ha
  rw [patch_getElem?_of_inside (by omega) hlow (by omega), field_getElem?, if_pos (by omega)]

/-- A patch leaves the fields that it does not overlap. -/
theorem field_patch (b : Bytes)
    (h : k + n ≤ off ∨ off + src.length ≤ k) : field (patch b off src) k n = field b k n := by
  apply ext_getElem?
  intro i
  simp only [field_getElem?]
  split_ifs with hi
  · apply patch_getElem?_of_outside
    omega
  · rfl

/-- A patch within a field is a patch of the field. -/
theorem field_patch_inside (hlow : k ≤ off)
    (hhigh : off + src.length ≤ k + n) (hfit : k + n ≤ b.length) :
    field (patch b off src) k n = patch (field b k n) (off - k) src := by
  have hlen := field_length hfit
  apply ext_getElem?
  intro i
  rw [field_getElem?]
  by_cases hin : off ≤ k + i ∧ k + i < off + src.length
  · have hshift : k + i - off = i - (off - k) := by omega
    rw [if_pos (by omega), patch_getElem?_of_inside (by omega) hin.1 hin.2,
      patch_getElem?_of_inside (by omega) (by omega) (by omega), hshift]
  · rw [patch_getElem?_of_outside _ (by omega), patch_getElem?_of_outside _ (by omega),
      field_getElem?]

theorem byteAt_patch (b : Bytes)
    (h : i < off ∨ off + src.length ≤ i) : byteAt (patch b off src) i = byteAt b i := by
  rw [byteAt, byteAt, getD_eq_getElem?_getD, getD_eq_getElem?_getD, patch_getElem?_of_outside b h]

theorem drop_patch (b : Bytes) (h : off + src.length ≤ k) :
    (patch b off src).drop k = b.drop k := by
  apply ext_getElem?
  intro i
  rw [getElem?_drop, getElem?_drop]
  apply patch_getElem?_of_outside
  omega

theorem drop_patch_add (h : k ≤ b.length) :
    (patch b (k + off) src).drop k = patch (b.drop k) off src := by
  have hlen : (b.drop k).length = b.length - k := length_drop ..
  by_cases hfit : k + off + src.length ≤ b.length
  · have htake : (b.take (k + off)).drop k = (b.drop k).take off := by
      rw [List.drop_take, Nat.add_sub_cancel_left]
    rw [patch_eq hfit, patch_eq (by omega), drop_append_of_le_length (by rw [length_take]; omega),
      htake, drop_drop, add_assoc]
  · rw [patch, writeAt, if_neg hfit, patch, writeAt, if_neg (by omega)]
    rfl

theorem field_patch_same (h : off + src.length ≤ b.length) :
    field (patch b off src) off src.length = src := by
  apply ext_getElem?
  intro i
  rw [field_getElem?]
  split_ifs with hi
  · rw [patch_getElem?_of_inside h (by omega) (by omega), Nat.add_sub_cancel_left]
  · rw [List.getElem?_eq_none (by omega)]

theorem patch_single_getElem? (x : Byte) (h : i < b.length) : (patch b i [x])[i]? = some x := by
  have hfit : i + [x].length ≤ b.length := h
  rw [patch_getElem?_of_inside hfit (Nat.le_refl i) (by simp), Nat.sub_self]
  rfl

theorem patch_patch_succ (x y : Byte) (h : i + 2 ≤ b.length) :
    patch (patch b i [x]) (i + 1) [y] = patch b i [x, y] := by
  have hx : (patch b i [x]).length = b.length := patch_length ..
  apply ext_getElem?
  intro k
  by_cases hk : k = i + 1
  · subst hk
    rw [patch_single_getElem? y (by omega), patch_getElem?_of_inside h (by omega) (by simp),
      Nat.add_sub_cancel_left]
    rfl
  · rw [patch_getElem?_of_outside _ (by rw [length_singleton]; omega)]
    by_cases hki : k = i
    · subst hki
      rw [patch_single_getElem? x (by omega), patch_getElem?_of_inside h (Nat.le_refl _) (by simp),
        Nat.sub_self]
      rfl
    · rw [patch_getElem?_of_outside _ (by rw [length_singleton]; omega),
        patch_getElem?_of_outside _ (by rw [length_cons, length_singleton]; omega)]

theorem byteAt_patch_same {x : Byte} (h : i < b.length) : byteAt (patch b i [x]) i = x := by
  rw [byteAt, getD_eq_getElem?_getD, patch_single_getElem? x h]
  rfl

/-! ## §3 Big-endian fields -/

theorem beNat_be16 (v : BitVec 16) : beNat (be16 v) = v.toNat := by
  have hv := v.isLt
  simp only [be16, beNat, length_cons, length_nil, toNat_setWidth,
    toNat_ushiftRight, shiftRight_eq_div_pow]
  omega

theorem beNat_be32 (v : BitVec 32) : beNat (be32 v) = v.toNat := by
  have hv := v.isLt
  simp only [be32, beNat, length_cons, length_nil, toNat_setWidth,
    toNat_ushiftRight, shiftRight_eq_div_pow]
  omega

theorem be16At_patch_same {v : BitVec 16} (h : off + 2 ≤ b.length) :
    be16At (patch b off (be16 v)) off = v := by
  have hread : field (patch b off (be16 v)) off 2 = be16 v := field_patch_same h
  rw [be16At, hread, beNat_be16, ofNat_toNat, setWidth_eq]

theorem be32At_patch_same {v : BitVec 32} (h : off + 4 ≤ b.length) :
    be32At (patch b off (be32 v)) off = v := by
  have hread : field (patch b off (be32 v)) off 4 = be32 v := field_patch_same h
  rw [be32At, hread, beNat_be32, ofNat_toNat, setWidth_eq]

end AmneziaWG.Lib
