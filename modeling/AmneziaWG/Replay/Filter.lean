import Mathlib.Data.List.MinMax
import Mathlib.Data.Nat.Bitwise
import Mathlib.Tactic.Common

/-!
# The Anti-Replay Filter

Embedding of `replay/replay.go`: a 128-block ring of 64-bit words that records
which message counters have been seen, in the manner of RFC 6479.

The filter keeps only the last `ringBlocks` blocks of counters.  Blocks are
cleared lazily when the window moves forward, and `Reset` clears a single block,
so most of the ring holds stale bits at most times.  The invariant `Tracks` says
which bits mean something: those of the blocks that end at the block of `last`.

## Main result

- `validateCounter_exact`: after a `Reset`, every call answers exactly as a filter
  that remembers every accepted counter would.
-/

namespace AmneziaWG.Replay

open List BitVec Nat Function

/-! ## §1 The filter -/

/-- `type block uint64`. -/
abbrev Block := BitVec 64

def blockBitLog : ℕ := 6
def blockBits : ℕ := 1 <<< blockBitLog
def ringBlocks : ℕ := 1 <<< 7
def windowSize : ℕ := (ringBlocks - 1) * blockBits
def blockMask : ℕ := ringBlocks - 1
def bitMask : ℕ := blockBits - 1

/-- The ring `[ringBlocks]block`. -/
abbrev Ring := Fin ringBlocks → Block

/-- A `Filter` rejects replayed messages by checking whether a counter is within
a sliding window of previously received messages. -/
structure Filter where
  last : BitVec 64
  ring : Ring

/-- The slot `ring[i & blockMask]`. -/
def slot (i : BitVec 64) : Fin ringBlocks :=
  ⟨(i &&& BitVec.ofNat 64 blockMask).toNat, by
    have : (i &&& BitVec.ofNat 64 blockMask).toNat ≤ blockMask :=
      le_trans (by simpa using Nat.and_le_right) (Nat.mod_le _ _)
    exact Nat.lt_of_le_of_lt this (by decide)⟩

/-- `Reset` moves the window back to the start; it clears `ring[0]` only. -/
def Filter.reset (f : Filter) : Filter :=
  { last := 0, ring := Function.update f.ring ⟨0, by decide⟩ 0 }

/-- The loop `for i := …; i <= current+diff; i++ { f.ring[i&blockMask] = 0 }`,
entered with `n` iterations to go. -/
def clearBlocks (ring : Ring) (i : BitVec 64) : ℕ → Ring
  | 0 => ring
  | n + 1 => clearBlocks (Function.update ring (slot i) 0) (i + 1) n

/-- The window moved forward to `counter`, with the blocks it enters cleared. -/
def Filter.moveForward (f : Filter) (counter : BitVec 64) : Filter :=
  let current := f.last >>> blockBitLog
  let diff := counter >>> blockBitLog - current
  -- cap diff to clear the whole ring
  let diff := if diff > BitVec.ofNat 64 ringBlocks then BitVec.ofNat 64 ringBlocks else diff
  { last := counter, ring := clearBlocks f.ring (current + 1) diff.toNat }

/-- The tail of `ValidateCounter`: check and set the bit of `counter`. -/
def Filter.checkAndSet (f : Filter) (counter : BitVec 64) : Bool × Filter :=
  let indexBlock := slot (counter >>> blockBitLog)
  let indexBit := counter &&& BitVec.ofNat 64 bitMask
  let old := f.ring indexBlock
  let new := old ||| (1#64 <<< indexBit.toNat)
  (old != new, { f with ring := Function.update f.ring indexBlock new })

/-- `ValidateCounter` checks if the counter should be accepted.
Overlimit counters (`>= limit`) are always rejected. -/
def Filter.validateCounter (f : Filter) (counter limit : BitVec 64) : Bool × Filter :=
  if counter ≥ limit then
    (false, f)
  else if counter > f.last then
    (f.moveForward counter).checkAndSet counter
  else if f.last - counter > BitVec.ofNat 64 windowSize then
    (false, f)
  else
    f.checkAndSet counter

/-! ## §2 Runs of the filter -/

/-- The filter after a sequence of `ValidateCounter(c, limit)` calls. -/
def Filter.after (f : Filter) (limit : BitVec 64) : List (BitVec 64) → Filter
  | [] => f
  | c :: cs => (f.validateCounter c limit).2.after limit cs

/-- The counters that a sequence of calls accepts, in call order. -/
def Filter.accepted (f : Filter) (limit : BitVec 64) : List (BitVec 64) → List (BitVec 64)
  | [] => []
  | c :: cs =>
    let rest := (f.validateCounter c limit).2.accepted limit cs
    if (f.validateCounter c limit).1 then c :: rest else rest

/-- The largest accepted counter, `0` when there is none. -/
def largest (cs : List (BitVec 64)) : ℕ :=
  (cs.map BitVec.toNat).foldr max 0

/-! ## §3 What the ring bits mean -/

theorem ringBlocks_eq : ringBlocks = 128 := rfl

theorem blockBits_eq : blockBits = 64 := rfl

theorem windowSize_eq : windowSize = 8128 := rfl

theorem slot_val (i : BitVec 64) : (slot i).val = i.toNat % ringBlocks := by
  have hmask : (BitVec.ofNat 64 blockMask).toNat = 2 ^ 7 - 1 := by decide
  simp only [slot, BitVec.toNat_and, hmask, Nat.and_two_pow_sub_one_eq_mod]
  rfl

theorem shift_toNat (c : BitVec 64) : (c >>> blockBitLog).toNat = c.toNat / blockBits := by
  simp [toNat_ushiftRight, shiftRight_eq_div_pow, blockBitLog, blockBits]

theorem indexBit_toNat (c : BitVec 64) :
    (c &&& BitVec.ofNat 64 bitMask).toNat = c.toNat % blockBits := by
  have hmask : (BitVec.ofNat 64 bitMask).toNat = 2 ^ 6 - 1 := by decide
  rw [toNat_and, hmask, and_two_pow_sub_one_eq_mod]
  rfl

def Ring.bit (ring : Ring) (c : BitVec 64) : Bool :=
  (ring (slot (c >>> blockBitLog))).getLsbD (c.toNat % blockBits)

/-- The blocks that a filter with last counter `last` still has in its ring. -/
def InRing (last : ℕ) (c : BitVec 64) : Prop :=
  c.toNat / blockBits ≤ last / blockBits ∧
    last / blockBits < c.toNat / blockBits + ringBlocks

/-- The filter `f` records the accepted counters `seen`: `last` is the largest one,
and a ring bit that is still in the ring is set exactly for the accepted counters.
Nothing is said about the other bits, which may be stale. -/
structure Tracks (f : Filter) (seen : List (BitVec 64)) : Prop where
  last_eq : f.last.toNat = largest seen
  bit_eq : ∀ c, InRing f.last.toNat c → f.ring.bit c = decide (c ∈ seen)

theorem le_largest {c : BitVec 64} {cs : List (BitVec 64)} (h : c ∈ cs) : c.toNat ≤ largest cs := by
  induction cs with
  | nil => cases h
  | cons d ds ih =>
    simp only [largest, map_cons, foldr_cons]
    rcases mem_cons.mp h with rfl | h
    · exact le_max_left _ _
    · exact le_trans (ih h) (le_max_right _ _)

theorem largest_append_singleton (cs : List (BitVec 64)) (c : BitVec 64) :
    largest (cs ++ [c]) = max (largest cs) c.toNat := by
  induction cs with
  | nil => simp [largest]
  | cons d ds ih =>
    simp only [largest, List.cons_append, List.map_cons, List.foldr_cons] at ih ⊢
    rw [ih, max_assoc]

/-- After `Reset` the only block in the ring is block `0`, which was cleared. -/
theorem tracks_reset (f : Filter) : Tracks f.reset [] := by
  refine ⟨rfl, ?_⟩
  intro c hc
  have hblock : c.toNat / blockBits = 0 := by
    have := hc.1
    simpa [Filter.reset, zero_div] using this
  have hslot : slot (c >>> blockBitLog) = ⟨0, by decide⟩ := by
    apply Fin.ext
    rw [slot_val, shift_toNat, hblock]
    rfl
  simp [Ring.bit, Filter.reset, hslot]

/-! ## §4 Moving the window forward -/

/-- The clearing loop zeroes the slots of `n` consecutive blocks and no others. -/
theorem clearBlocks_apply (ring : Ring) (i : BitVec 64) (n : ℕ) (s : Fin ringBlocks) :
    clearBlocks ring i n s = if ∃ k < n, s.val = (i.toNat + k) % ringBlocks then 0 else ring s := by
  induction n generalizing ring i with
  | zero => simp [clearBlocks]
  | succ n ih =>
    have hstep : ∀ k, ((i + 1).toNat + k) % ringBlocks = (i.toNat + (k + 1)) % ringBlocks := by
      intro k
      have h64 : (i + 1).toNat = (i.toNat + 1) % 2 ^ 64 := by simp
      rw [h64]
      rw [ringBlocks_eq]
      omega
    rw [clearBlocks, ih]
    by_cases hs : s = slot i
    · -- the slot cleared by this iteration
      have h0 : ∃ k < n + 1, s.val = (i.toNat + k) % ringBlocks :=
        ⟨0, succ_pos n, by rw [hs, slot_val, add_zero]⟩
      rw [if_pos h0, hs, update_self, ite_self]
    · have hne : s.val ≠ i.toNat % ringBlocks := fun h => hs (Fin.ext (h.trans (slot_val i).symm))
      rw [update_of_ne hs]
      refine if_congr ?_ rfl rfl
      constructor
      · rintro ⟨k, hk, h⟩
        exact ⟨k + 1, succ_lt_succ hk, h.trans (hstep k)⟩
      · rintro ⟨k, hk, h⟩
        cases k with
        | zero => exact absurd h hne
        | succ k => exact ⟨k, lt_of_succ_lt_succ hk, h.trans (hstep k).symm⟩

/-- The number of blocks cleared when the window moves from `last` to `counter`. -/
theorem moveForward_ring (f : Filter) (counter : BitVec 64) (h : f.last < counter) :
    (f.moveForward counter).ring = clearBlocks f.ring (f.last >>> blockBitLog + 1)
        (min (counter.toNat / blockBits - f.last.toNat / blockBits) ringBlocks) := by
  have hlt : f.last.toNat < counter.toNat := h
  have hle : f.last.toNat / blockBits ≤ counter.toNat / blockBits :=
    Nat.div_le_div_right hlt.le
  have hdiff : (counter >>> blockBitLog - f.last >>> blockBitLog).toNat =
      counter.toNat / blockBits - f.last.toNat / blockBits := by
    rw [toNat_sub_of_le]
    · rw [shift_toNat, shift_toNat]
    · rw [le_def, shift_toNat, shift_toNat]
      exact hle
  have hcap : (BitVec.ofNat 64 ringBlocks).toNat = ringBlocks := by decide
  simp only [Filter.moveForward]
  congr 1
  split
  · rename_i hgt
    have hgt' := lt_def.mp hgt
    rw [hdiff, hcap] at hgt'
    rw [hcap, min_eq_right hgt'.le]
  · rename_i hgt
    have hgt' := mt lt_def.mpr hgt
    rw [hdiff, hcap] at hgt'
    rw [hdiff, min_eq_left (not_lt.mp hgt')]

variable {f : Filter} {seen : List (BitVec 64)}

/-- Moving the window forward keeps the bits of the blocks that stay in the ring and
gives empty blocks to the counters that enter it. -/
theorem moveForward_bit (ht : Tracks f seen)
    {counter : BitVec 64} (h : f.last < counter) (c : BitVec 64) (hc : InRing counter.toNat c) :
    (f.moveForward counter).ring.bit c = decide (c ∈ seen) := by
  have hlt : f.last.toNat < counter.toNat := h
  have hle : f.last.toNat / blockBits ≤ counter.toNat / blockBits :=
    Nat.div_le_div_right hlt.le
  have hstart : (f.last >>> blockBitLog + 1).toNat = f.last.toNat / blockBits + 1 := by
    have hlast := f.last.isLt
    have h6 : (f.last >>> blockBitLog).toNat = f.last.toNat / blockBits := shift_toNat f.last
    rw [toNat_add, h6]
    simp only [blockBits, blockBitLog] at *
    simp
    omega
  obtain ⟨hc₁, hc₂⟩ := hc
  rw [Ring.bit, moveForward_ring f counter h, clearBlocks_apply, hstart, slot_val, shift_toNat]
  by_cases hold : c.toNat / blockBits ≤ f.last.toNat / blockBits
  · -- an old block: none of the entered blocks shares its slot
    have hkeep : ¬∃ k < min (counter.toNat / blockBits - f.last.toNat / blockBits) ringBlocks,
        c.toNat / blockBits % ringBlocks = (f.last.toNat / blockBits + 1 + k) % ringBlocks := by
      rintro ⟨k, hk, heq⟩
      rw [ringBlocks_eq] at *
      omega
    rw [if_neg hkeep]
    exact ht.bit_eq c ⟨hold, lt_of_le_of_lt hle hc₂⟩
  · -- a new block: cleared on the way, and beyond every accepted counter
    have hclear : ∃ k < min (counter.toNat / blockBits - f.last.toNat / blockBits) ringBlocks,
        c.toNat / blockBits % ringBlocks = (f.last.toNat / blockBits + 1 + k) % ringBlocks := by
      refine ⟨(c.toNat / blockBits - f.last.toNat / blockBits - 1) % ringBlocks, ?_, ?_⟩
      · rw [ringBlocks_eq] at *
        omega
      · rw [ringBlocks_eq] at *
        omega
    have hnot : c ∉ seen := by
      intro hmem
      have hle' : c.toNat ≤ f.last.toNat := ht.last_eq ▸ le_largest hmem
      exact hold (Nat.div_le_div_right hle')
    rw [if_pos hclear]
    simp [hnot]

/-! ## §5 Checking and setting a bit -/

theorem oneShift_getLsbD {n : ℕ} (hn : n < 64) (i : ℕ) :
    (1#64 <<< n).getLsbD i = decide (i = n) := by
  rw [getLsbD_shiftLeft, Bool.eq_iff_iff]
  simp only [getLsbD_one, Bool.and_eq_true, decide_eq_true_eq, Bool.not_eq_true',
    decide_eq_false_iff_not]
  omega

theorem checkAndSet_fst (f : Filter) (c : BitVec 64) : (f.checkAndSet c).1 = !f.ring.bit c := by
  have hbit : c.toNat % blockBits < 64 := mod_lt _ (by decide)
  rw [Bool.eq_iff_iff]
  simp only [Filter.checkAndSet, Ring.bit, indexBit_toNat, bne_iff_ne, ne_eq, Bool.not_eq_true']
  constructor
  · -- a bit that is already set leaves the word as it was
    intro hne
    by_contra hset
    apply hne
    apply eq_of_getLsbD_eq
    intro i hi
    rw [getLsbD_or, oneShift_getLsbD hbit]
    by_cases h : i = c.toNat % blockBits
    · rw [h, Bool.of_not_eq_false hset, Bool.true_or]
    · rw [decide_eq_false h, Bool.or_false]
  · intro hunset heq
    have hget := congrArg (fun b : Block => b.getLsbD (c.toNat % blockBits)) heq
    simp only [getLsbD_or, oneShift_getLsbD hbit, hunset, decide_true, Bool.or_true] at hget
    exact Bool.false_ne_true hget

theorem checkAndSet_bit (f : Filter) (c d : BitVec 64)
    (hc : InRing f.last.toNat c) (hd : InRing f.last.toNat d) :
    (f.checkAndSet c).2.ring.bit d = (f.ring.bit d || decide (d = c)) := by
  have hbit : c.toNat % blockBits < 64 := mod_lt _ (by decide)
  simp only [Filter.checkAndSet, Ring.bit, indexBit_toNat]
  by_cases hs : slot (d >>> blockBitLog) = slot (c >>> blockBitLog)
  · -- one slot holds one block of the window, so `d` and `c` are in the same block
    have hblock : d.toNat / blockBits = c.toNat / blockBits := by
      have hval := congrArg Fin.val hs
      rw [slot_val, slot_val, shift_toNat, shift_toNat] at hval
      obtain ⟨hc₁, hc₂⟩ := hc
      obtain ⟨hd₁, hd₂⟩ := hd
      rw [ringBlocks_eq] at *
      omega
    have heq : d.toNat % blockBits = c.toNat % blockBits ↔ d = c := by
      rw [← toNat_inj]
      constructor
      · intro hmod
        rw [← div_add_mod d.toNat blockBits, ← div_add_mod c.toNat blockBits, hblock, hmod]
      · intro h
        rw [h]
    rw [hs, update_self, getLsbD_or, oneShift_getLsbD hbit]
    simp only [heq]
  · have hne : d ≠ c := fun h => hs (h ▸ rfl)
    rw [update_of_ne hs, decide_eq_false hne, Bool.or_false]

theorem checkAndSet_last (f : Filter) (c : BitVec 64) : (f.checkAndSet c).2.last = f.last := rfl

/-- The common tail of the two accepting paths: `f` already has its window at `last`,
its bits record `seen`, and `c` is in the ring. -/
theorem tracks_checkAndSet {c : BitVec 64}
    (hbits : ∀ d, InRing f.last.toNat d → f.ring.bit d = decide (d ∈ seen))
    (hlast : f.last.toNat = max (largest seen) c.toNat) (hc : InRing f.last.toNat c) :
    ((f.checkAndSet c).1 = true ↔ c ∉ seen) ∧
      Tracks (f.checkAndSet c).2 (if (f.checkAndSet c).1 then seen ++ [c] else seen) := by
  have hfst : (f.checkAndSet c).1 = true ↔ c ∉ seen := by
    rw [checkAndSet_fst, hbits c hc]
    simp
  refine ⟨hfst, ?_⟩
  by_cases hmem : c ∈ seen
  · rw [if_neg (fun h => hfst.mp h hmem)]
    refine ⟨?_, ?_⟩
    · rw [checkAndSet_last, hlast, max_eq_left (le_largest hmem)]
    · intro d hd
      rw [checkAndSet_bit f c d hc hd, hbits d hd]
      by_cases hdc : d = c
      · simp [hdc, hmem]
      · simp [hdc]
  · rw [if_pos (hfst.mpr hmem)]
    refine ⟨?_, ?_⟩
    · rw [checkAndSet_last, hlast, largest_append_singleton]
    · intro d hd
      rw [checkAndSet_bit f c d hc hd, hbits d hd]
      simp [mem_append]

/-! ## §6 One call and whole runs -/

/-- When a call accepts: below the limit, not seen before, not behind the window. -/
def Fresh (limit : BitVec 64) (seen : List (BitVec 64)) (c : BitVec 64) : Prop :=
  c < limit ∧ c ∉ seen ∧ largest seen ≤ c.toNat + windowSize

/-- One call answers as the exact filter and keeps the record. -/
theorem validateCounter_step (ht : Tracks f seen) (c limit : BitVec 64) :
    ((f.validateCounter c limit).1 = true ↔ Fresh limit seen c) ∧
      Tracks (f.validateCounter c limit).2
        (if (f.validateCounter c limit).1 then seen ++ [c] else seen) := by
  have hwindow : (BitVec.ofNat 64 windowSize).toNat = windowSize := by decide
  unfold Filter.validateCounter
  by_cases hlimit : c ≥ limit
  · rw [if_pos hlimit]
    refine ⟨?_, ht⟩
    constructor
    · intro h
      cases h
    · intro h
      exact absurd h.1 (BitVec.not_lt.mpr hlimit)
  have hlt : c < limit := BitVec.not_le.mp hlimit
  rw [if_neg hlimit]
  by_cases hfwd : c > f.last
  · -- the window moves forward to `c`, which was never seen
    have hlast : f.last.toNat < c.toNat := hfwd
    have hself : InRing c.toNat c := ⟨le_rfl, by rw [ringBlocks_eq]; omega⟩
    obtain ⟨hans, htr⟩ := tracks_checkAndSet (f := f.moveForward c) (c := c)
      (moveForward_bit ht hfwd) (by rw [← ht.last_eq, max_eq_right hlast.le]; rfl) hself
    rw [if_pos hfwd]
    refine ⟨hans.trans ?_, htr⟩
    constructor
    · intro h
      exact ⟨hlt, h, by rw [← ht.last_eq]; omega⟩
    · intro h
      exact h.2.1
  have hle : c ≤ f.last := BitVec.not_lt.mp hfwd
  have hsub : (f.last - c).toNat = f.last.toNat - c.toNat := toNat_sub_of_le hle
  have hle' : c.toNat ≤ f.last.toNat := hle
  rw [if_neg hfwd]
  -- behind the window; nothing is known about the counter, and it is refused
  by_cases hbehind : f.last - c > BitVec.ofNat 64 windowSize
  · have hgt := lt_def.mp hbehind
    rw [hwindow, hsub] at hgt
    rw [if_pos hbehind]
    refine ⟨?_, ht⟩
    constructor
    · intro h
      cases h
    · intro h
      have := h.2.2
      rw [← ht.last_eq] at this
      omega
  · -- inside the window: at most 127 blocks behind the last one
    have hgt := mt lt_def.mpr hbehind
    rw [hwindow, hsub] at hgt
    have hring : InRing f.last.toNat c := by
      refine ⟨Nat.div_le_div_right hle', ?_⟩
      rw [windowSize_eq] at hgt
      rw [ringBlocks_eq, blockBits_eq]
      omega
    obtain ⟨hans, htr⟩ := tracks_checkAndSet (f := f) (c := c) ht.bit_eq
      (by rw [← ht.last_eq, max_eq_left hle']) hring
    rw [if_neg hbehind]
    refine ⟨hans.trans ?_, htr⟩
    constructor
    · intro h
      exact ⟨hlt, h, by rw [← ht.last_eq]; omega⟩
    · intro h
      exact h.2.1

theorem tracks_after (ht : Tracks f seen) (limit : BitVec 64) (calls : List (BitVec 64)) :
    Tracks (f.after limit calls) (seen ++ f.accepted limit calls) := by
  induction calls generalizing f seen with
  | nil => simpa [Filter.after, Filter.accepted] using ht
  | cons c cs ih =>
    have hstep := ih (validateCounter_step ht c limit).2
    rw [Filter.after, Filter.accepted]
    cases hans : (f.validateCounter c limit).1 with
    | false => simpa [hans] using hstep
    | true => simpa [hans] using hstep

/-- **The replay filter is exact.**  Take any filter state, reset it, and make any
sequence `calls` of `ValidateCounter` calls with one `limit`.  The next call accepts
`c` exactly when `c` is below the limit, was not accepted since the reset, and is at
most `windowSize` behind the largest counter accepted since the reset. -/
theorem validateCounter_exact (f : Filter) (limit : BitVec 64) (calls : List (BitVec 64))
    (c : BitVec 64) : ((f.reset.after limit calls).validateCounter c limit).1 = true ↔
      c < limit ∧ c ∉ f.reset.accepted limit calls ∧
        largest (f.reset.accepted limit calls) ≤ c.toNat + windowSize := by
  have ht := tracks_after (tracks_reset f) limit calls
  rw [nil_append] at ht
  exact (validateCounter_step ht c limit).1

end AmneziaWG.Replay
