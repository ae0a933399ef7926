import AmneziaWG.Device.Obf.Filler

/-!
# Imitation on 32-Bit Platforms

`writeSIP` picks its texts by `int(next()) % 3`.  With an `int` of 32 bits a draw may be negative,
and so is then its remainder, which is no index.  All other indices and slices of the writers are in
range on every platform.

## Main results

- `imitation_total_iff`: which calls of the writers do not panic.
-/

namespace AmneziaWG.Device

open AmneziaWG.Lib Nat

/-- The draw, read as an `int` of 32 bits, has a remainder that is an index. -/
def SafeDraw (v : BitVec 32) : Prop := 0 ≤ v.toInt ∨ 3 ∣ v.toInt

instance (v : BitVec 32) : Decidable (SafeDraw v) := inferInstanceAs (Decidable (_ ∨ _))

/-- The draws for the status, the host and the method are all safe. -/
def SafeSeed (seed : BitVec 32) : Prop :=
  SafeDraw seed ∧ SafeDraw (lcgStep seed) ∧ SafeDraw (lcgStep (lcgStep seed))

/-! ## §1 One draw -/

theorem drawInt_32 (v : BitVec 32) : drawInt 32 v = v.toInt := by
  rw [drawInt, wrapInt, BitVec.toInt_eq_toNat_bmod]

theorem tmod_three_nonneg_iff (a : ℤ) : 0 ≤ a.tmod 3 ↔ 0 ≤ a ∨ 3 ∣ a := by
  rw [Int.tmod_eq_emod]
  split_ifs with h
  · exact iff_of_true (by omega) h
  · exact iff_of_false (by omega) h

theorem drawInt_nonneg_iff {w : ℕ} (hw : w = 32 ∨ w = 64) (v : BitVec 32) :
    0 ≤ (drawInt w v).tmod 3 ↔ (w = 32 → SafeDraw v) := by
  rcases hw with rfl | rfl
  · rw [drawInt_32, tmod_three_nonneg_iff]
    simp [SafeDraw]
  · rw [drawInt_tmod]
    exact iff_of_true (Int.natCast_nonneg _) (by simp)

theorem indexInt_isSome_iff {l : List Bytes} (hl : l.length = 3) (a : ℤ) :
    (indexInt l (a.tmod 3)).isSome ↔ 0 ≤ a.tmod 3 := by
  have hlt : a.tmod 3 < 3 := Int.tmod_lt_of_pos a (by decide)
  unfold indexInt
  split_ifs with h
  · simp [h, hl]
    omega
  · simp [h]

/-! ## §2 The message -/

theorem sipStatusTextAt_isSome_iff (n : ℕ) (a : ℤ) (k : List ℕ) :
    (sipStatusTextAt n (a.tmod 3) (0 :: k)).isSome ↔ 0 ≤ a.tmod 3 := by
  by_cases h : 0 ≤ a.tmod 3
  · obtain ⟨i, hi⟩ := Int.eq_ofNat_of_zero_le h
    rw [hi, sipStatusTextAt_natCast]
    simp
  · -- the first access is at the negative index itself
    have hsame : (a.tmod 3 + ((0 : ℕ) : ℤ)).tmod 3 = a.tmod 3 := by
      rw [Int.natCast_zero, Int.add_zero, Int.tmod_tmod]
    rw [sipStatusTextAt, hsame, indexInt, if_neg h]
    simp [h]

theorem sipFillerAt_isSome_iff {w : ℕ} (hw : w = 32 ∨ w = 64) (seed : BitVec 32) {n : ℕ}
    (hn : 0 < n) (total : ℕ) :
    (sipFillerAt w seed n total).isSome ↔ (w = 32 → SafeSeed seed) := by
  have hhost := indexInt_isSome_iff (l := sipHosts) rfl (drawInt w (sipDraws seed).host)
  have hmethod := indexInt_isSome_iff (l := sipMethods) rfl (drawInt w (sipDraws seed).method)
  have hstatus := sipStatusTextAt_isSome_iff n (drawInt w (sipDraws seed).status) [1, 2]
  have hall : (w = 32 → SafeSeed seed) ↔ 0 ≤ (drawInt w (sipDraws seed).status).tmod 3 ∧
      0 ≤ (drawInt w (sipDraws seed).host).tmod 3 ∧
        0 ≤ (drawInt w (sipDraws seed).method).tmod 3 := by
    rw [drawInt_nonneg_iff hw, drawInt_nonneg_iff hw, drawInt_nonneg_iff hw, ← imp_and, ← imp_and]
    rfl
  rw [hall, ← hhost, ← hmethod, ← hstatus, sipFillerAt, if_neg (ne_of_gt hn)]
  dsimp only
  cases indexInt sipHosts ((drawInt w (sipDraws seed).host).tmod 3) with
  | none => simp
  | some host =>
    cases indexInt sipMethods ((drawInt w (sipDraws seed).method).tmod 3) with
    | none => simp
    | some method =>
      cases sipStatusTextAt n ((drawInt w (sipDraws seed).status).tmod 3) [0, 1, 2] with
      | none => simp
      | some text => cases text <;> simp

theorem writeSIP_isSome_iff {w : ℕ} (hw : w = 32 ∨ w = 64) {buf : Bytes} {padding : ℕ}
    (hpadding : padding ≤ buf.length) (seed : BitVec 32) :
    (writeSIP w buf padding seed).isSome ↔ (w = 32 → 0 < padding → SafeSeed seed) := by
  rw [writeSIP_eq_map w hpadding, Option.isSome_map]
  rcases Nat.eq_zero_or_pos padding with rfl | hpos
  · simp [sipFillerAt]
  · rw [sipFillerAt_isSome_iff hw seed hpos]
    exact imp_congr_right fun _ => ⟨fun h _ => h, fun h => h hpos⟩

/-! ## §3 All writers -/

/-- **Writers that do not panic.**  On platforms with an `int` of 32 or of 64 bits, for every
buffer, padding, seed and protocol, no index and no slice is out of range, except in a SIP message
on 32 bits whose first three draws include a negative one that three does not divide. -/
theorem imitation_total_iff {w : ℕ} (hw : w = 32 ∨ w = 64) (buf : Bytes) {padding : ℕ}
    (hpadding : padding ≤ buf.length) (seed : BitVec 32) (proto : ImitateProto) :
    ((imitateFill w buf padding seed proto).isSome ↔
      (proto = .sip → w = 32 → 0 < padding → SafeSeed seed)) ∧
    ((imitateFillWhole w buf seed proto).isSome ↔
      (proto = .sip → w = 32 → 0 < buf.length → SafeSeed seed)) := by
  have hwhole := le_refl buf.length
  cases proto with
  | none => simp [imitateFill, imitateFillWhole]
  | quic => simp [imitateFill, imitateFillWhole, writeQUICShort_eq hpadding,
      writeQUICShort_eq hwhole]
  | stun => simp [imitateFill, imitateFillWhole, writeSTUN_eq hpadding, writeSTUN_eq hwhole]
  | dns =>
    constructor
    · rcases Nat.eq_zero_or_pos padding with rfl | hpos
      · simp [imitateFill, writeDNS]
      · simp [imitateFill, writeDNS_eq hpos hpadding]
    · rw [imitateFillWhole, writeDNSWhole]
      split_ifs <;> simp [writeDNSMsg_eq hwhole]
  | sip => simpa [imitateFill, imitateFillWhole] using
      ⟨writeSIP_isSome_iff hw hpadding seed, writeSIP_isSome_iff hw hwhole seed⟩

/-- A seed whose first three draws are not negative on 32 bits. -/
theorem imitation_total_seed :
    (imitateFill 32 (List.replicate 60 0) 40 20 .sip).isSome ∧
    (imitateFillWhole 32 (List.replicate 60 0) 20 .sip).isSome := by
  have hsafe : SafeSeed 20 := ⟨by decide, by decide, by decide⟩
  obtain ⟨hfill, hwhole⟩ :=
    imitation_total_iff (Or.inl rfl) (List.replicate 60 0) (by decide : 40 ≤ _) 20 .sip
  exact ⟨hfill.mpr fun _ _ _ => hsafe, hwhole.mpr fun _ _ _ => hsafe⟩

/-- **A message that panics** on 32 bits and not on 64. -/
theorem imitation_panics : imitateFill 32 (List.replicate 60 0) 40 0x80000000 .sip = none ∧
      imitateFillWhole 32 (List.replicate 60 0) 0x80000000 .sip = none ∧
      (imitateFill 64 (List.replicate 60 0) 40 0x80000000 .sip).isSome = true := by
  decide +kernel

end AmneziaWG.Device
