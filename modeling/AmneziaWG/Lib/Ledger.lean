import Mathlib.Data.Multiset.Count
import Mathlib.Data.Multiset.AddSub

/-!
# Ledgers of Borrowed Objects

Objects of several kinds are borrowed and given back.  Every object that is borrowed gets a number
of its own, so that borrowing the same memory a second time is a second entry, and the ledger
records the two lists of entries.  Who holds an object is not the ledger's business: `Balanced`
compares it with a multiset of held objects, and two rules say how that multiset changes.

## Main results

- `Ledger.Balanced.borrow`, `Ledger.Balanced.giveBack`: the rules.
- `Ledger.Balanced.count_put`: what is not held any more was given back exactly once.
-/

namespace AmneziaWG.Lib

open List Nat

variable {K : Type}

/-- The entries of all objects that were borrowed and of all that were given back. -/
structure Ledger (K : Type) where
  next : ℕ
  got : List (K × ℕ)
  put : List (K × ℕ)

namespace Ledger

def empty : Ledger K :=
  { next := 0, got := [], put := [] }

/-- Borrowing an object of a kind; its number is the old `next`. -/
def borrow (l : Ledger K) (k : K) : Ledger K :=
  { l with next := l.next + 1, got := (k, l.next) :: l.got }

def giveBack (l : Ledger K) (r : K × ℕ) : Ledger K :=
  { l with put := r :: l.put }

/-- Everything that was borrowed was given back or is held, and not both. -/
structure Balanced (l : Ledger K) (held : Multiset (K × ℕ)) : Prop where
  accounted : (l.put : Multiset (K × ℕ)) + held = l.got
  nodup : l.got.Nodup
  numbered : ∀ r ∈ l.got, r.2 < l.next

theorem balanced_empty : (empty : Ledger K).Balanced 0 where
  accounted := rfl
  nodup := nodup_nil
  numbered := by simp [empty]

variable {l : Ledger K} {held : Multiset (K × ℕ)}

/-- A borrowed object is held. -/
theorem Balanced.borrow (h : l.Balanced held) (k : K) :
    (l.borrow k).Balanced ((k, l.next) ::ₘ held) where
  accounted := by
    show (l.put : Multiset (K × ℕ)) + (k, l.next) ::ₘ held = ((k, l.next) :: l.got : List (K × ℕ))
    rw [Multiset.add_cons, h.accounted, Multiset.cons_coe]
  nodup := by
    -- the number is larger than all that were given out
    refine nodup_cons.mpr ⟨fun hmem => ?_, h.nodup⟩
    exact lt_irrefl _ (h.numbered _ hmem)
  numbered := by
    intro r hr
    show r.2 < l.next + 1
    rcases mem_cons.mp hr with rfl | hold
    · exact lt_succ_self _
    · exact lt_succ_of_lt (h.numbered r hold)

/-- An object that is given back is no longer held. -/
theorem Balanced.giveBack {r : K × ℕ}
    (h : l.Balanced (r ::ₘ held)) : (l.giveBack r).Balanced held where
  accounted := by
    show ((r :: l.put : List (K × ℕ)) : Multiset (K × ℕ)) + held = l.got
    rw [← Multiset.cons_coe, Multiset.cons_add, ← Multiset.add_cons, h.accounted]
  nodup := h.nodup
  numbered := h.numbered

/-- What is not held was given back exactly once. -/
theorem Balanced.count_put [DecidableEq K]
    (h : l.Balanced held) {r : K × ℕ} (hgot : r ∈ l.got) (hheld : r ∉ held) :
    (l.put : Multiset (K × ℕ)).count r = 1 := by
  have htotal : ((l.put : Multiset (K × ℕ)) + held).count r = 1 := by
    rw [h.accounted]
    exact Multiset.count_eq_one_of_mem (Multiset.coe_nodup.mpr h.nodup) hgot
  rwa [Multiset.count_add, Multiset.count_eq_zero_of_notMem hheld, Nat.add_zero] at htotal

end Ledger

end AmneziaWG.Lib
