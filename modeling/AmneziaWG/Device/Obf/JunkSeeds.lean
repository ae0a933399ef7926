import AmneziaWG.Device.Obf.Conformance
import Mathlib.Tactic.Linarith

/-!
# Consecutive Junk Datagrams

The junk datagrams of a device are filled from the values of a counter.  The seeds of consecutive
values differ in their low halves, and every writer lets the low half of its seed be read off what
it writes.

## Main results

- `imitateJunkSeed_succ_ne`: consecutive seeds differ in their low halves.
- `low_of_generate`: four bytes of the generator give its low half.
- `junkDatagrams_differ`: consecutive datagrams differ.
-/

namespace AmneziaWG.Device

open AmneziaWG.Lib List Option Nat

variable {s t : BitVec 32} {n : ℕ}

/-! ## §1 Seeds -/

/-- A step of FNV-1a on the low half of the state. -/
def fnvLow (state : BitVec 16) (b : Byte) : BitVec 16 := (state ^^^ b.setWidth 16) * 0x0193

theorem setWidth_foldl_fnv (bs : Bytes) (state : BitVec 32) :
    (bs.foldl (fun state b => (state ^^^ b.setWidth 32) * 0x01000193) state).setWidth 16 =
      bs.foldl fnvLow (state.setWidth 16) := by
  induction bs generalizing state with
  | nil => rfl
  | cons b bs ih =>
    rw [foldl_cons, foldl_cons, ih, fnvLow, BitVec.setWidth_mul _ _ (by decide),
      BitVec.setWidth_xor, BitVec.setWidth_setWidth_of_le _ (by decide)]
    rfl

theorem eq_of_mul_eq {x y c : BitVec 16} (inv : BitVec 16) (hinv : c * inv = 1)
    (h : x * c = y * c) : x = y := by
  have hinv' := congrArg (· * inv) h
  simpa [BitVec.mul_assoc, hinv] using hinv'

/-- Equal bytes keep different states apart. -/
theorem foldl_fnvLow_ne {x y : BitVec 16} (h : x ≠ y) (bs : Bytes) :
    bs.foldl fnvLow x ≠ bs.foldl fnvLow y := by
  induction bs generalizing x y with
  | nil => exact h
  | cons b bs ih =>
    refine ih fun heq => h ?_
    simpa using eq_of_mul_eq 0x449b (by decide) heq

/-- The states are apart behind the byte that stops the carry, whichever of the next `m` bytes it
is. -/
def carriesApart : ℕ → BitVec 16 → BitVec 16 → Bool
  | 0, _, _ => true
  | m + 1, x, y =>
    (List.range 255).all (fun b => fnvLow x (BitVec.ofNat 8 b) !=
      fnvLow y (BitVec.ofNat 8 (b + 1))) && carriesApart m (fnvLow x 0xff) (fnvLow y 0)

theorem foldl_leBytes_succ_ne {m v : ℕ} {x y : BitVec 16} (hv : v + 1 < 256 ^ m)
    (happart : carriesApart m x y) :
    (leBytes m v).foldl fnvLow x ≠ (leBytes m (v + 1)).foldl fnvLow y := by
  induction m generalizing v x y with
  | zero => simp at hv
  | succ m ih =>
    simp only [carriesApart, Bool.and_eq_true, List.all_eq_true, List.mem_range,
      bne_iff_ne] at happart
    rw [leBytes, leBytes, foldl_cons, foldl_cons]
    rw [pow_succ] at hv
    by_cases hcarry : v % 256 = 255
    · -- the carry goes on to the next byte
      have hlow : BitVec.ofNat 8 v = 0xff := BitVec.eq_of_toNat_eq (by simpa using hcarry)
      have hhigh : BitVec.ofNat 8 (v + 1) = 0 := BitVec.eq_of_toNat_eq (by simp; omega)
      rw [hlow, hhigh, show (v + 1) / 256 = v / 256 + 1 by omega]
      exact ih (by omega) happart.2
    · have hlow : BitVec.ofNat 8 (v % 256) = BitVec.ofNat 8 v := BitVec.eq_of_toNat_eq (by simp)
      have hhigh : BitVec.ofNat 8 (v % 256 + 1) = BitVec.ofNat 8 (v + 1) :=
        BitVec.eq_of_toNat_eq (by simp)
      have hne := happart.1 (v % 256) (by omega)
      rw [hlow, hhigh] at hne
      rw [show (v + 1) / 256 = v / 256 by omega]
      exact foldl_fnvLow_ne hne _

/-- Consecutive seeds differ in their low halves. -/
theorem imitateJunkSeed_succ_ne {c : BitVec 64} (hc : c.toNat < 2 ^ 64 - 1) :
    (imitateJunkSeed c).setWidth 16 ≠ (imitateJunkSeed (c + 1)).setWidth 16 := by
  have hsucc : (c + 1).toNat = c.toNat + 1 := by
    rw [BitVec.toNat_add]
    exact mod_eq_of_lt (show c.toNat + 1 < 2 ^ 64 by omega)
  have hseed : ∀ v, (fnv1aSeed (leBytes 8 v)).setWidth 16 = (leBytes 8 v).foldl fnvLow 0x9dc5 := by
    intro v
    rw [fnv1aSeed, leBytes_length, if_neg (by decide), take_of_length_le (by simp),
      setWidth_foldl_fnv]
    rfl
  rw [imitateJunkSeed, imitateJunkSeed, hsucc, hseed, hseed]
  exact foldl_leBytes_succ_ne (by omega) (by decide +kernel)

/-! ## §2 The generator -/

theorem toNat_lcgStep (s : BitVec 32) :
    (lcgStep s).toNat = (s.toNat * 1103515245 + 12345) % 4294967296 := by
  rw [lcgStep, BitVec.toNat_add, BitVec.toNat_mul]
  exact mod_add_mod _ _ _

theorem low_of_lcgStep (h : (lcgStep s).setWidth 16 = (lcgStep t).setWidth 16) :
    s.setWidth 16 = t.setWidth 16 := by
  have hstep : ∀ v : BitVec 32, (lcgStep v).setWidth 16 = v.setWidth 16 * 20077 + 12345 := by
    intro v
    rw [lcgStep, BitVec.setWidth_add _ _ (by decide), BitVec.setWidth_mul _ _ (by decide)]
    rfl
  rw [hstep, hstep, BitVec.add_left_inj] at h
  exact eq_of_mul_eq 0xeb65 (by decide) h

theorem low_of_bytes (hhigh : (s >>> 8).setWidth 8 = (t >>> 8).setWidth 8)
    (hlow : s.setWidth 8 = t.setWidth 8) :
    s.setWidth 16 = t.setWidth 16 := by
  have hhigh' := congrArg BitVec.toNat hhigh
  have hlow' := congrArg BitVec.toNat hlow
  apply BitVec.eq_of_toNat_eq
  simp [Nat.shiftRight_eq_div_pow] at hhigh' hlow' ⊢
  omega

/-- Four consecutive differences are multiples of the first modulo `2 ^ 24`.  Combinations of them
with small coefficients are too small for that, unless they vanish. -/
theorem difference_eq_zero {x y z u : ℤ} (hy : 16777216 ∣ y - 1103515245 * x)
    (hz : 16777216 ∣ z - 1103515245 * y) (hu : 16777216 ∣ u - 1103515245 * z)
    (hbound : ∀ v ∈ [x, y, z, u], |v| < 65536) : x = 0 := by
  have h₁ : 16777216 ∣ 4 * x - 15 * y + 31 * z + 8 * u := by omega
  have h₂ : 16777216 ∣ -45 * x + 11 * y + 26 * z + 4 * u := by omega
  have h₃ : 16777216 ∣ -8 * x - 64 * y - 25 * z + 5 * u := by omega
  have h₄ : 16777216 ∣ -9 * x - 25 * y + 31 * z - 133 * u := by omega
  simp only [forall_mem_cons, abs_lt] at hbound
  obtain ⟨hx, hy, hz, hu, -⟩ := hbound
  have h₁' := Int.eq_zero_of_abs_lt_dvd h₁ (abs_lt.mpr ⟨by linarith, by linarith⟩)
  have h₂' := Int.eq_zero_of_abs_lt_dvd h₂ (abs_lt.mpr ⟨by linarith, by linarith⟩)
  have h₃' := Int.eq_zero_of_abs_lt_dvd h₃ (abs_lt.mpr ⟨by linarith, by linarith⟩)
  have h₄' := Int.eq_zero_of_abs_lt_dvd h₄ (abs_lt.mpr ⟨by linarith, by linarith⟩)
  linarith

/-- The difference of two states, of the 24 bits that reach the bytes. -/
def stateDifference (s t : BitVec 32) : ℤ := (s.toNat % 16777216 : ℕ) - (t.toNat % 16777216 : ℕ)

theorem stateDifference_lcgStep (s t : BitVec 32) :
    16777216 ∣ stateDifference (lcgStep s) (lcgStep t) - 1103515245 * stateDifference s t := by
  simp only [stateDifference, toNat_lcgStep]
  omega

theorem stateDifference_lt (h : (quicByte s).1 = (quicByte t).1) :
    |stateDifference s t| < 65536 := by
  have hnat := congrArg BitVec.toNat h
  simp [quicByte, Nat.shiftRight_eq_div_pow] at hnat
  rw [stateDifference, abs_lt]
  omega

/-- Four bytes of the generator give its low half. -/
theorem low_of_generate (h : generate quicByte 4 s = generate quicByte 4 t) :
    s.setWidth 16 = t.setWidth 16 := by
  simp only [generate, cons.injEq] at h
  obtain ⟨h₀, h₁, h₂, h₃, -⟩ := h
  have hzero := difference_eq_zero (stateDifference_lcgStep s t) (stateDifference_lcgStep _ _)
    (stateDifference_lcgStep _ _) (by simpa using ⟨stateDifference_lt h₀, stateDifference_lt h₁,
      stateDifference_lt h₂, stateDifference_lt h₃⟩)
  apply BitVec.eq_of_toNat_eq
  simp only [stateDifference, BitVec.toNat_setWidth] at hzero ⊢
  omega

/-! ## §3 The writers -/

theorem low_of_quicFiller (hn : 5 ≤ n) (h : quicFiller s n = quicFiller t n) :
    s.setWidth 16 = t.setWidth 16 := by
  obtain ⟨k, rfl⟩ := Nat.exists_eq_add_of_le hn
  rw [show 5 + k = k + 4 + 1 by omega, quicFiller, quicFiller, cons.injEq] at h
  have hfour := congrArg (take 4) h.2
  exact low_of_lcgStep (low_of_lcgStep (low_of_lcgStep (low_of_generate hfour)))

theorem low_of_stunFiller (hn : 20 ≤ n) (h : stunFiller s n = stunFiller t n) :
    s.setWidth 16 = t.setWidth 16 := by
  have htxn : ∀ seed, ((stunFiller seed n).drop 8).take 4 = be32 seed := by
    intro seed
    rw [stunFiller, take_of_length_le (le_trans (by simp [stunHeader, stunTxn]) hn)]
    rfl
  have hbytes := htxn s
  rw [h, htxn t] at hbytes
  simp only [be32, cons.injEq] at hbytes
  exact low_of_bytes hbytes.2.2.1.symm hbytes.2.2.2.1.symm

/-- What a SIP message begins with, up to the branch. -/
def sipFront (status host : ℕ) : Bytes :=
  sipStatusLine (sipStatus[status]?.getD []) ++
    (ascii "Via: SIP/2.0/UDP " ++ sipHosts[host]?.getD [] ++ ascii ":5060;branch=z9hG4bK")

theorem sipFront_prefix : ∀ i < 3, ∀ j < 3, ∀ i' < 3, ∀ j' < 3,
    (sipFront i j).isPrefixOf (sipFront i' j') = decide (sipFront i j = sipFront i' j') := by
      decide +kernel

theorem sipFront_length :
    ∀ i < 3, ∀ j < 3, (sipStatusLine (sipStatus[i]?.getD [])).length + 2 ≤ 92 ∧
    (sipFront i j).length + 18 ≤ 92 := by decide +kernel

theorem prefix_packLines (text : Bytes) (lines : List Bytes) :
    text <+: (packLines n text lines).1 := by
  obtain ⟨done, -, htext, -⟩ := packLines_spec n text lines
  exact ⟨_, htext.symm⟩

theorem prefix_sipTextOf {status via : Bytes} {lines : List Bytes}
    (h : status.length + via.length + 2 ≤ n) :
    status ++ via <+: sipTextOf (via :: lines) n n status := by
  rw [sipTextOf, packLines, if_pos h]
  split_ifs
  · exact (prefix_packLines _ _).trans (prefix_packLines _ _)
  · exact prefix_packLines _ _

/-- The branch is written behind the status line and the host. -/
theorem sipFiller_front (seed : BitVec 32) (hn : 92 ≤ n) :
    ∃ i < 3, ∃ j < 3,
      sipFront i j ++ hex8 (lcgStep (lcgStep (lcgStep seed))) <+: sipFiller seed n n := by
  have hlt : ∀ v, v % 3 < 3 := fun v => Nat.mod_lt v (by decide)
  refine ⟨seed.toNat % 3, hlt _, (lcgStep seed).toNat % 3, hlt _, ?_⟩
  obtain ⟨hstatus, hfront⟩ := sipFront_length _ (hlt seed.toNat) _ (hlt (lcgStep seed).toNat)
  have htext : sipStatusText n (seed.toNat % 3) [0, 1, 2] =
      some (sipStatusLine (sipStatus[seed.toNat % 3]?.getD [])) := by
    simp only [sipStatusText, Nat.add_zero, Nat.mod_mod]
    exact if_pos (by omega)
  have hvia : sipFront (seed.toNat % 3) ((lcgStep seed).toNat % 3) ++ hex8
    (lcgStep (lcgStep (lcgStep seed))) ++
      ascii ";rport\r\n" = sipStatusLine (sipStatus[seed.toNat % 3]?.getD []) ++
        sipViaLine (sipHosts[(lcgStep seed).toNat % 3]?.getD [])
          (lcgStep (lcgStep (lcgStep seed))) := by
    simp [sipFront, sipViaLine]
  have hfits := congrArg List.length hvia
  simp only [List.length_append, hex8_length, show (ascii ";rport\r\n").length =
    8 by decide] at hfits
  refine List.IsPrefix.trans ⟨_, hvia⟩ ?_
  rw [sipFiller, sipFillerOf, show (sipDraws seed).status = seed from rfl, htext]
  refine List.IsPrefix.trans ?_ (⟨_, (List.append_assoc ..).symm⟩ : _ <+: sipClose n _)
  exact prefix_sipTextOf (by omega)

theorem low_of_hex8 (h : hex8 s = hex8 t) : s.setWidth 16 = t.setWidth 16 := by
  have hdigit : ∀ a < 16, ∀ b < 16, hexDigit a = hexDigit b → a = b := by decide
  have hvalue : ∀ (v : BitVec 32) shift, ((v >>> shift) &&& 15#32).toNat =
      v.toNat / 2 ^ shift % 16 := by
    intro v shift
    rw [BitVec.toNat_and, BitVec.toNat_ushiftRight, shiftRight_eq_div_pow]
    exact and_two_pow_sub_one_eq_mod _ 4
  have hnibble : ∀ shift ∈ [12, 8, 4, 0], s.toNat / 2 ^ shift % 16 = t.toNat / 2 ^ shift % 16 := by
    intro shift hshift
    have hsame := map_inj_left.mp h shift (mem_append_right [28, 24, 20, 16] hshift)
    simpa [hvalue] using hdigit _ (by simp [hvalue, mod_lt]) _ (by simp [hvalue, mod_lt]) hsame
  apply BitVec.eq_of_toNat_eq
  simp at hnibble ⊢
  omega

theorem low_of_sipFiller (hn : 92 ≤ n) (h : sipFiller s n n = sipFiller t n n) :
    s.setWidth 16 = t.setWidth 16 := by
  obtain ⟨i, hi, j, hj, hs⟩ := sipFiller_front s hn
  obtain ⟨i', hi', j', hj', ht⟩ := sipFiller_front t hn
  rw [h] at hs
  -- of two beginnings of one message, one begins with the other
  have hfront : sipFront i j = sipFront i' j' := by
    rcases prefix_or_prefix_of_prefix ((prefix_append ..).trans hs) ((prefix_append ..).trans ht)
      with hpre | hpre
    · have hfront := sipFront_prefix i hi j hj i' hi' j' hj'
      rw [← isPrefixOf_iff_prefix] at hpre
      simpa [hpre] using hfront
    · have hfront := sipFront_prefix i' hi' j' hj' i hi j hj
      rw [← isPrefixOf_iff_prefix] at hpre
      simpa [hpre, eq_comm] using hfront
  rw [hfront] at hs
  have heq := (prefix_of_prefix_length_le hs ht (by simp)).eq_of_length (by simp)
  exact low_of_lcgStep (low_of_lcgStep (low_of_lcgStep (low_of_hex8 (append_cancel_left heq))))

theorem low_of_dnsFiller (hn : 32 ≤ n)
    (h : dnsFiller ((s >>> 8).setWidth 8, s.setWidth 8) n n =
      dnsFiller ((t >>> 8).setWidth 8, t.setWidth 8) n n) :
    s.setWidth 16 = t.setWidth 16 := by
  have hopt : ¬n < dnsOptMin := not_lt.mpr hn
  rw [dnsFiller, dnsFiller, if_neg hopt, if_neg hopt] at h
  have htwo := congrArg (take 2) h
  obtain ⟨hhigh, hlow⟩ := cons.inj htwo
  exact low_of_bytes hhigh (cons.inj hlow).1

/-! ## §4 Datagrams -/

/-- A datagram is written, and the low half of the seed can be read off it. -/
theorem low_of_wholeFillerAt {proto : ImitateProto} (hproto : proto ≠ .none) (hn : 92 ≤ n)
    (h : wholeFillerAt 64 n s proto = wholeFillerAt 64 n t proto) :
    s.setWidth 16 = t.setWidth 16 := by
  cases proto with
  | none => exact absurd rfl hproto
  | quic => exact low_of_quicFiller (by omega) (some.inj h)
  | dns => exact low_of_dnsFiller (by omega) (some.inj h)
  | stun => exact low_of_stunFiller (by omega) (some.inj h)
  | sip =>
    rw [wholeFillerAt, wholeFillerAt, sipFillerAt_64, sipFillerAt_64] at h
    exact low_of_sipFiller hn (some.inj h)

theorem wholeFillerAt_length {proto : ImitateProto} (hproto : proto ≠ .none) (seed : BitVec 32)
    (n : ℕ) :
    ∃ out, wholeFillerAt 64 n seed proto = some out ∧ out.length = n := by
  cases proto with
  | none => exact absurd rfl hproto
  | quic => exact ⟨_, rfl, quicFiller_length seed n⟩
  | dns => exact ⟨_, rfl, dnsFiller_length _ n n⟩
  | stun => exact ⟨_, rfl, stunFiller_length seed n⟩
  | sip => exact ⟨_, sipFillerAt_64 seed n n, sipFillerAt_length (sipFillerAt_64 seed n n)⟩

/-- **Consecutive junk datagrams differ** in at least one byte. -/
theorem junkDatagrams_differ {c : BitVec 64} (hc : c.toNat < 2 ^ 64 - 1) {proto : ImitateProto}
    (hproto : proto ≠ .none) {buf buf' : Bytes} (hlen : buf'.length = buf.length)
    (hlong : 92 ≤ buf.length) :
    ∃ out out', imitateFillWhole 64 buf (imitateJunkSeed c) proto = some out ∧
      imitateFillWhole 64 buf' (imitateJunkSeed (c + 1)) proto = some out' ∧
      out.length = buf.length ∧ out'.length = buf.length ∧
        ∃ i < buf.length, out[i]? ≠ out'[i]? := by
  obtain ⟨out, hout, hlength⟩ := wholeFillerAt_length hproto (imitateJunkSeed c) buf.length
  obtain ⟨out', hout', hlength'⟩ := wholeFillerAt_length hproto (imitateJunkSeed (c + 1)) buf.length
  refine ⟨out, out', ?_, ?_, hlength, hlength', ?_⟩
  · rw [imitateFillWhole_eq 64 buf _ hproto, hout]
  · rw [imitateFillWhole_eq 64 buf' _ hproto, hlen, hout']
  · by_contra hsame
    simp only [not_exists, not_and, not_not] at hsame
    have heq : out = out' := by
      apply List.ext_getElem?
      intro i
      rcases Nat.lt_or_ge i buf.length with hi | hi
      · exact hsame i hi
      · rw [List.getElem?_eq_none (by omega), List.getElem?_eq_none (by omega)]
    refine imitateJunkSeed_succ_ne hc (low_of_wholeFillerAt hproto hlong ?_)
    rw [hout, hout', heq]

/-- Two SIP datagrams for a counter whose low bytes carry. -/
theorem junkDatagrams_differ_carry :
    ∃ out out', imitateFillWhole 64 (List.replicate 92 0) (imitateJunkSeed 0xffff) .sip = some out ∧
      imitateFillWhole 64 (List.replicate 92 0) (imitateJunkSeed 0x10000) .sip = some out' ∧
        out ≠ out' := by
  have hzeros : (replicate 92 0 : Bytes).length = 92 := rfl
  obtain ⟨out, out', hout, hout', -, -, i, -, hne⟩ := junkDatagrams_differ (c := 0xffff) (by decide)
    (by decide : ImitateProto.sip ≠ .none) hzeros hzeros.ge
  exact ⟨out, out', hout, hout', fun heq => hne (by rw [heq])⟩

end AmneziaWG.Device
