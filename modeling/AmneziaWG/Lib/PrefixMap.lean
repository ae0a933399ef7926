import Mathlib.Data.List.Infix
import Mathlib.Tactic.Common

/-!
# Prefix Maps and Longest-Prefix Match

A map that gives owners to bit-string prefixes, and the owner of the longest
prefix of an address.  This is what a routing table is for, independently of the
data structure that holds it.

## Main results

- `longest_eq_some_iff`, `longest_eq_none_iff`: `longest` is the longest-prefix match.
- `below_eq_of_gap`: only lengths at which the map is defined matter, which is what a
  path-compressed walk exploits.
-/

namespace AmneziaWG.Lib

open List Nat

universe u

variable {α : Type u}

/-- Owners of bit-string prefixes. -/
def PrefixMap (α : Type u) := List Bool → Option α

namespace PrefixMap

/-! ## §1 Operations -/

def empty : PrefixMap α := fun _ => none

/-- Give prefix `p` to `a`, whoever owned it. -/
def insert (m : PrefixMap α) (p : List Bool) (a : α) : PrefixMap α :=
  fun q => if q = p then some a else m q

/-- Take prefix `p` away from `a`; nothing happens when `a` does not own it. -/
def remove [DecidableEq α] (m : PrefixMap α) (p : List Bool) (a : α) : PrefixMap α :=
  fun q => if q = p ∧ m q = some a then none else m q

/-- Take every prefix away from `a`. -/
def removeOwner [DecidableEq α] (m : PrefixMap α) (a : α) : PrefixMap α :=
  fun q => if m q = some a then none else m q

@[simp] theorem insert_self (m : PrefixMap α) (p : List Bool) (a : α) :
    m.insert p a p = some a := by
  simp [insert]

theorem insert_of_ne (m : PrefixMap α) {p q : List Bool} (h : q ≠ p) (a : α) :
    m.insert p a q = m q := by
  simp [insert, h]

/-- The owner of the longest prefix of `addr` with fewer than `k` bits. -/
def below (m : PrefixMap α) (addr : List Bool) : ℕ → Option α
  | 0 => none
  | k + 1 => (m (addr.take k)).or (below m addr k)

/-- Longest-prefix match. -/
def longest (m : PrefixMap α) (addr : List Bool) : Option α :=
  m.below addr (addr.length + 1)

/-! ## §2 Longest-prefix match -/

theorem below_succ (m : PrefixMap α) (addr : List Bool) (k : ℕ) :
    m.below addr (k + 1) = (m (addr.take k)).or (m.below addr k) := rfl

variable {m : PrefixMap α} {addr : List Bool} {k : ℕ}

/-- Lengths at which the map has no prefix of the address can be skipped. -/
theorem below_eq_of_gap {j : ℕ} (hjk : j ≤ k) (hgap : ∀ i, j ≤ i → i < k → m (addr.take i) = none) :
    m.below addr k = m.below addr j := by
  induction k with
  | zero => rw [le_zero.mp hjk]
  | succ k ih =>
    rcases lt_or_ge k j with hlt | hge
    · have hj : j = k + 1 := by omega
      rw [hj]
    · rw [below_succ, hgap k hge k.lt_succ_self, Option.none_or]
      exact ih hge (fun i hi hik => hgap i hi (by omega))

theorem below_eq_none_iff : m.below addr k = none ↔ ∀ i < k, m (addr.take i) = none := by
  induction k with
  | zero => simp [below]
  | succ k ih =>
    rw [below_succ, Option.or_eq_none_iff, ih]
    constructor
    · rintro ⟨hlast, hrest⟩ i hi
      rcases Nat.lt_succ_iff_lt_or_eq.mp hi with hlt | rfl
      · exact hrest i hlt
      · exact hlast
    · intro h
      exact ⟨h k k.lt_succ_self, fun i hi => h i (by omega)⟩

theorem below_eq_some_iff {a : α} : m.below addr k = some a ↔
      ∃ i < k, m (addr.take i) = some a ∧ ∀ j, i < j → j < k → m (addr.take j) = none := by
  induction k with
  | zero => simp [below]
  | succ k ih =>
    rw [below_succ]
    -- the longest candidate decides, or the shorter ones do
    cases hlast : m (addr.take k) with
    | some b =>
      rw [Option.some_or]
      constructor
      · intro h
        exact ⟨k, k.lt_succ_self, hlast.trans h, fun j hj hj' => absurd hj (by omega)⟩
      · rintro ⟨i, hi, h, hmax⟩
        rcases Nat.lt_succ_iff_lt_or_eq.mp hi with hlt | rfl
        · rw [hmax k hlt k.lt_succ_self] at hlast
          cases hlast
        · rw [← hlast, h]
    | none =>
      rw [Option.none_or, ih]
      constructor
      · rintro ⟨i, hi, h, hmax⟩
        refine ⟨i, by omega, h, fun j hj hj' => ?_⟩
        rcases Nat.lt_succ_iff_lt_or_eq.mp hj' with hlt | rfl
        · exact hmax j hj hlt
        · exact hlast
      · rintro ⟨i, hi, h, hmax⟩
        rcases Nat.lt_succ_iff_lt_or_eq.mp hi with hlt | rfl
        · exact ⟨i, hlt, h, fun j hj hj' => hmax j hj (by omega)⟩
        · rw [hlast] at h
          cases h

/-- `longest` is the owner of the longest prefix of the address that has one. -/
theorem longest_eq_some_iff {a : α} : m.longest addr = some a ↔ ∃ p, p <+: addr ∧ m p = some a ∧
        ∀ q, q <+: addr → p.length < q.length → m q = none := by
  rw [longest, below_eq_some_iff]
  constructor
  · rintro ⟨i, hi, h, hmax⟩
    refine ⟨addr.take i, take_prefix i addr, h, fun q hq hlt => ?_⟩
    rw [List.length_take, min_eq_left (by omega)] at hlt
    have hle := hq.length_le
    rw [prefix_iff_eq_take.mp hq]
    exact hmax q.length hlt (by omega)
  · rintro ⟨p, hp, h, hmax⟩
    have hle := hp.length_le
    refine ⟨p.length, by omega, ?_, fun j hj hj' => ?_⟩
    · rw [← prefix_iff_eq_take.mp hp]
      exact h
    · have hpre : addr.take j <+: addr := take_prefix j addr
      refine hmax _ hpre ?_
      rw [length_take, min_eq_left (by omega)]
      exact hj

/-- There is no match when no prefix of the address has an owner. -/
theorem longest_eq_none_iff : m.longest addr = none ↔ ∀ p, p <+: addr → m p = none := by
  rw [longest, below_eq_none_iff]
  constructor
  · intro h p hp
    have hle := hp.length_le
    rw [prefix_iff_eq_take.mp hp]
    exact h p.length (by omega)
  · intro h i _
    exact h _ <| take_prefix i addr

end PrefixMap

end AmneziaWG.Lib
