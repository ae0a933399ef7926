import AmneziaWG.Device.AllowedIPs.Table

/-!
# Prefix Arithmetic of the Trie

What `commonBits`, `choose` and `maskSelf` compute, in terms of the bit strings of
addresses.  After this module the proofs about the trie do not look at bytes any more.
-/

namespace AmneziaWG.Device

open AmneziaWG.Lib List Option Nat

/-! ## §1 `commonBits` -/

def IsAddr (ip : Bytes) : Prop := ∃ f : Family, ip.length = f.addrLen

variable {ip a b : Bytes} {k i n : ℕ}

theorem isAddr_iff : IsAddr ip ↔ ip.length = 4 ∨ ip.length = 16 := by
  constructor
  · rintro ⟨f, h⟩
    cases f with
    | ipv4 => exact Or.inl h
    | ipv6 => exact Or.inr h
  · rintro (h | h)
    · exact ⟨.ipv4, h⟩
    · exact ⟨.ipv6, h⟩

private theorem bitAt_take (ip : Bytes) (hi : i < 8 * k) : bitAt (ip.take k) i = bitAt ip i := by
  have hk : i / 8 < k := by omega
  simp [bitAt, getD_eq_getElem?_getD, getElem?_take_of_lt hk]

private theorem bitAt_drop (ip : Bytes) (k i : ℕ) : bitAt (ip.drop k) i = bitAt ip (8 * k + i) := by
  have hdiv : (8 * k + i) / 8 = k + i / 8 := by omega
  have hmod : (8 * k + i) % 8 = i % 8 := by omega
  simp [bitAt, getD_eq_getElem?_getD, getElem?_drop, hdiv, hmod]

/-- One big-endian word: its leading zeros count the common bits. -/
private theorem word_common (ha : a.length = n) (hb : b.length = n) (hk : k ≤ 8 * n) :
    k ≤ leadingZeros (8 * n) (beNat a ^^^ beNat b) ↔ AgreeTo k a b := by
  subst ha
  exact le_leadingZeros_xor_iff hb.symm hk

private theorem word_common_all (ha : a.length = n) (hb : b.length = n) :
    beNat a ^^^ beNat b = 0 ↔ AgreeTo (8 * n) a b := by
  rw [← word_common ha hb le_rfl, leadingZeros]
  constructor
  · intro h
    simp [h]
  · intro h
    by_contra hne
    have hpos : 0 < size (beNat a ^^^ beNat b) := size_pos.mpr (pos_of_ne_zero hne)
    have hn : 0 < n := by
      rcases Nat.eq_zero_or_pos n with hn | hn
      · rw [hn] at ha hb
        simp [length_eq_zero_iff.mp ha, length_eq_zero_iff.mp hb] at hne
      · exact hn
    omega

theorem le_commonBits_iff (ha : IsAddr a) (hlen : a.length = b.length) (hk : k ≤ 8 * a.length) :
    k ≤ commonBits a b ↔ AgreeTo k a b := by
  rcases isAddr_iff.mp ha with h4 | h16
  · -- IPv4: one 32-bit word
    have hb4 : b.length = 4 := hlen ▸ h4
    have hfam : a.length = Family.ipv4.addrLen := h4
    rw [commonBits, if_pos hfam, take_of_length_le h4.le, take_of_length_le hb4.le]
    exact word_common (n := 4) h4 hb4 (by omega)
  · -- IPv6: the second 64-bit word counts only when the first ones are equal
    have hb16 : b.length = 16 := hlen ▸ h16
    have hne4 : a.length ≠ Family.ipv4.addrLen := by
      rw [h16]
      decide
    have hhi : (a.take 8).length = 8 ∧ (b.take 8).length = 8 := by
      simp [h16, hb16]
    have hlo : ((a.drop 8).take 8).length = 8 ∧ ((b.drop 8).take 8).length = 8 := by
      simp [h16, hb16]
    have hagree_hi : ∀ j ≤ 64, AgreeTo j (a.take 8) (b.take 8) ↔ AgreeTo j a b := by
      intro j hj
      constructor
      · intro h i hi
        rw [← bitAt_take a (k := 8) (by omega), ← bitAt_take b (k := 8) (by omega)]
        exact h i hi
      · intro h i hi
        rw [bitAt_take _ (by omega), bitAt_take _ (by omega)]
        exact h i hi
    have hagree_lo : ∀ j ≤ 64, AgreeTo 64 a b →
        (AgreeTo j ((a.drop 8).take 8) ((b.drop 8).take 8) ↔ AgreeTo (64 + j) a b) := by
      intro j hj h64
      constructor
      · intro h i hi
        by_cases hi64 : i < 64
        · exact h64 i hi64
        · have := h (i - 64) (by omega)
          rw [bitAt_take _ (by omega), bitAt_take _ (by omega), bitAt_drop, bitAt_drop] at this
          have hidx : 8 * 8 + (i - 64) = i := by omega
          rwa [hidx] at this
      · intro h i hi
        rw [bitAt_take _ (by omega), bitAt_take _ (by omega), bitAt_drop, bitAt_drop]
        exact h _ (by omega)
    have hfam : a.length = Family.ipv6.addrLen := h16
    rw [commonBits, if_neg hne4, if_pos hfam]
    -- the first words are equal, or they decide
    by_cases hx : beNat (a.take 8) ^^^ beNat (b.take 8) = 0
    · have h64 : AgreeTo 64 a b :=
        (hagree_hi 64 le_rfl).mp ((word_common_all (n := 8) hhi.1 hhi.2).mp hx)
      simp only [hx, ne_eq, not_true_eq_false, if_false]
      rcases le_total k 64 with hk64 | hk64
      · constructor
        · intro _
          exact h64.mono hk64
        · intro _
          omega
      · obtain ⟨j, rfl⟩ : ∃ j, k = 64 + j := ⟨k - 64, by omega⟩
        rw [← hagree_lo j (by omega) h64, ← word_common (n := 8) hlo.1 hlo.2 (by omega)]
        exact Nat.add_le_add_iff_left
    · simp only [ne_eq, hx, not_false_eq_true, if_true]
      rcases le_total k 64 with hk64 | hk64
      · rw [← hagree_hi k hk64]
        exact word_common (n := 8) hhi.1 hhi.2 (by omega)
      · constructor
        · intro h
          have h64 := (word_common (n := 8) hhi.1 hhi.2 le_rfl).mp (le_trans hk64 h)
          exact absurd ((word_common_all (n := 8) hhi.1 hhi.2).mpr h64) hx
        · intro h
          have h64 := (hagree_hi 64 le_rfl).mpr (h.mono hk64)
          exact absurd ((word_common_all (n := 8) hhi.1 hhi.2).mpr h64) hx

/-! ## §2 `choose` -/

/-- A node that has the branch position of its prefix length chooses bit `cidr`. -/
theorem choose_eq {P : Type} {node : TrieEntry P} (hbyte : node.bitAtByte = node.cidr / 8)
    (hshift : node.bitAtShift = 7 - node.cidr % 8) (h : node.cidr < 8 * ip.length) :
    node.choose ip = some (bitAt ip node.cidr) := by
  have hlt : node.cidr / 8 < ip.length := by omega
  simp only [TrieEntry.choose, hbyte, hshift, getElem?_eq_getElem hlt, map_some,
    BitVec.getLsbD_ushiftRight, add_zero, bitAt, getD_eq_getElem?_getD,
    getD_some]

/-! ## §3 `maskSelf` -/

private theorem cidrMaskBytes_length (l n : ℕ) : (cidrMaskBytes l n).length = l := by
  induction l generalizing n with
  | zero => rfl
  | succ l ih =>
    rw [cidrMaskBytes]
    split
    · simp [ih]
    · simp [ih]

private theorem byteMask_getLsbD (hn : n < 8) (hi : i < 8) :
    (~~~(0xff#8 >>> n)).getLsbD (7 - i) = decide (i < n) := by
  have hall : ∀ n i : Fin 8, (~~~(0xff#8 >>> n.val)).getLsbD (7 - i.val) =
      decide (i.val < n.val) := by
    decide
  exact hall ⟨n, hn⟩ ⟨i, hi⟩

private theorem bitAt_cidrMaskBytes {l : ℕ} (hi : i < 8 * l) :
    bitAt (cidrMaskBytes l n) i = decide (i < n) := by
  induction l generalizing n i with
  | zero => simp at hi
  | succ l ih =>
    rw [cidrMaskBytes]
    -- a byte of ones, or the last byte that has any
    by_cases hn : n ≥ 8
    · rw [if_pos hn]
      by_cases h8 : i < 8
      · have hall : ∀ i : Fin 8, (0xff#8).getLsbD (7 - i.val) = true := by
          decide
        rw [bitAt_cons_lt _ _ h8, hall ⟨i, h8⟩]
        simp
        omega
      · obtain ⟨j, rfl⟩ : ∃ j, i = j + 8 := ⟨i - 8, by omega⟩
        rw [bitAt_cons_ge, ih (by omega)]
        simp
        omega
    · rw [if_neg hn]
      by_cases h8 : i < 8
      · rw [bitAt_cons_lt _ _ h8]
        exact byteMask_getLsbD (by omega) h8
      · obtain ⟨j, rfl⟩ : ∃ j, i = j + 8 := ⟨i - 8, by omega⟩
        rw [bitAt_cons_ge, ih (by omega)]
        simp
        omega

private theorem andMask_length (b m : Bytes) : (andMask b m).length = b.length := by
  fun_induction andMask b m with
  | case1 b bs m ms ih => simp [ih]
  | case2 bs _ _ => rfl

private theorem bitAt_andMask {m : Bytes} (hlen : b.length = m.length) (i : ℕ) :
    bitAt (andMask b m) i = (bitAt b i && bitAt m i) := by
  induction b generalizing m i with
  | nil => simp [andMask, bitAt]
  | cons x xs ih =>
    cases m with
    | nil => simp at hlen
    | cons y ys =>
      rw [andMask]
      by_cases h8 : i < 8
      · simp [bitAt_cons_lt _ _ h8]
      · obtain ⟨j, rfl⟩ : ∃ j, i = j + 8 := ⟨i - 8, by omega⟩
        simp only [bitAt_cons_ge]
        exact ih (by simpa using hlen) j

/-- The bits of an address with everything from bit `cidr` on cleared. -/
def masked (ip : Bytes) (cidr : ℕ) : Bytes :=
  andMask ip (cidrMask cidr (ip.length * 8))

@[simp] theorem masked_length (ip : Bytes) (cidr : ℕ) : (masked ip cidr).length = ip.length :=
  andMask_length _ _

/-- Masking keeps the first `cidr` bits and clears the others. -/
theorem bitAt_masked (hip : IsAddr ip) {cidr : ℕ} (hc : cidr ≤ 8 * ip.length)
    (hi : i < 8 * ip.length) : bitAt (masked ip cidr) i = (decide (i < cidr) && bitAt ip i) := by
  have hmask : cidrMask cidr (ip.length * 8) = cidrMaskBytes ip.length cidr := by
    rw [cidrMask, if_neg, Nat.mul_div_cancel _ (by decide)]
    rcases isAddr_iff.mp hip with h | h <;> omega
  rw [masked, hmask, bitAt_andMask (cidrMaskBytes_length _ _).symm, bitAt_cidrMaskBytes hi,
    Bool.and_comm]

theorem masked_agree (hip : IsAddr ip) {cidr : ℕ} (hc : cidr ≤ 8 * ip.length) :
    AgreeTo cidr (masked ip cidr) ip := by
  intro i hi
  simp [bitAt_masked hip hc (lt_of_lt_of_le hi hc), hi]

end AmneziaWG.Device
