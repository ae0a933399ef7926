import Mathlib.Data.List.Basic
import Mathlib.Data.List.Nodup
import Mathlib.Logic.Function.Basic

/-!
# Secrets That Are Spent Once

Holders draw fresh roots, derive secrets from them, and spend a secret at the end.  A secret tells
from which root it comes.  A holder may refine its secret, give it up, or replace it by one from a
root that was never drawn before.  Then no two spent secrets come from one root.

## Main result

- `Lineage.Inv.spent_nodup`: no secret is spent twice.
-/

namespace AmneziaWG.Lib

open List Function

/-- The roots drawn so far, the secret that each holder has, and the secrets spent so far. -/
structure Lineage (I R K : Type) where
  drawn : List R
  live : I → Option K
  spent : List K

namespace Lineage

variable {I R K : Type} {rooted : R → K → Prop} {l : Lineage I R K}

/-- Every secret has a root that was drawn, and no root has two secrets. -/
structure Inv (rooted : R → K → Prop) (l : Lineage I R K) : Prop where
  live_root : ∀ i k, l.live i = some k → ∃ x ∈ l.drawn, rooted x k
  live_inj : ∀ i j k k' x, l.live i = some k → l.live j = some k' → rooted x k → rooted x k' → i = j
  spent_root : ∀ k ∈ l.spent, ∃ x ∈ l.drawn, rooted x k
  spent_live : ∀ k ∈ l.spent, ∀ i k' x, l.live i = some k' → rooted x k → ¬rooted x k'
  spent_apart : l.spent.Pairwise fun k k' => ∀ x, rooted x k → ¬rooted x k'

theorem Inv.spent_nodup (h : l.Inv rooted) : l.spent.Nodup := by
  refine h.spent_apart.imp_of_mem ?_
  rintro k k' hk - hapart rfl
  obtain ⟨x, -, hx⟩ := h.spent_root k hk
  exact hapart x hx hx

theorem Inv.empty {live : I → Option K} (hlive : ∀ i, live i = none) :
    Inv rooted { drawn := [], live, spent := [] } where
  live_root i k hk := by simp [hlive i] at hk
  live_inj i j k k' x hk := by simp [hlive i] at hk
  spent_root k hk := nomatch hk
  spent_live k hk := nomatch hk
  spent_apart := .nil

variable [DecidableEq I]

theorem update_eq_some {live : I → Option K} {i j : I} {new : Option K} {k : K}
    (h : Function.update live i new j = some k) : (j = i ∧ new = some k) ∨
    (j ≠ i ∧ live j = some k) := by
  by_cases hj : j = i
  · subst hj
    exact .inl ⟨rfl, by simpa using h⟩
  · exact .inr ⟨hj, by rwa [update_of_ne hj] at h⟩

/-- A holder loses its secret. -/
theorem Inv.drop (h : l.Inv rooted) (i : I) :
    Inv rooted { l with live := update l.live i none } := by
  have hlive : ∀ j k, update l.live i none j = some k → l.live j = some k := by
    intro j k hk
    rcases update_eq_some hk with ⟨-, hnone⟩ | ⟨-, hj⟩
    · cases hnone
    · exact hj
  exact ⟨fun j k hk => h.live_root j k (hlive j k hk),
    fun j j' k k' x hk hk' => h.live_inj j j' k k' x (hlive j k hk) (hlive j' k' hk'), h.spent_root,
    fun k hk j k' x hk' => h.spent_live k hk j k' x (hlive j k' hk'), h.spent_apart⟩

/-- A holder spends its secret. -/
theorem Inv.spend (h : l.Inv rooted) {i : I} {k : K} (hi : l.live i = some k) :
    Inv rooted { l with live := update l.live i none, spent := l.spent ++ [k] } := by
  have hdrop := h.drop i
  refine ⟨hdrop.live_root, hdrop.live_inj, ?_, ?_, ?_⟩
  · intro k' hk'
    rcases mem_append.mp hk' with hold | hnew
    · exact h.spent_root k' hold
    · rw [mem_singleton.mp hnew]
      exact h.live_root i k hi
  · intro k' hk' j kj x hj hx hxj
    rcases mem_append.mp hk' with hold | hnew
    · exact hdrop.spent_live k' hold j kj x hj hx hxj
    · -- another holder cannot have a secret of the same root
      rw [mem_singleton.mp hnew] at hx
      rcases update_eq_some hj with ⟨-, hnone⟩ | ⟨hji, hj⟩
      · cases hnone
      · exact hji (h.live_inj j i kj k x hj hi hxj hx)
  · rw [pairwise_append]
    refine ⟨h.spent_apart, pairwise_singleton _ _, ?_⟩
    intro k' hk' k'' hk'' x hx
    rw [mem_singleton.mp hk'']
    exact h.spent_live k' hk' i k x hi hx

variable (hunique : ∀ x y k, rooted x k → rooted y k → x = y)
include hunique

/-- A holder derives another secret from its own. -/
theorem Inv.refine (h : l.Inv rooted) {i : I} {k k' : K} (hi : l.live i = some k)
    (hk : ∀ x, rooted x k → rooted x k') :
    Inv rooted { l with live := update l.live i (some k') } := by
  obtain ⟨r, hr, hrk⟩ := h.live_root i k hi
  -- every secret that is held now has the roots of one that was held before
  have hbefore : ∀ j kj, update l.live i (some k') j = some kj →
      ∃ kj₀, l.live j = some kj₀ ∧ ∀ x, rooted x kj → rooted x kj₀ := by
    intro j kj hj
    rcases update_eq_some hj with ⟨rfl, hsome⟩ | ⟨-, hj⟩
    · cases hsome
      exact ⟨k, hi, fun x hx => hunique r x _ (hk r hrk) hx ▸ hrk⟩
    · exact ⟨kj, hj, fun x hx => hx⟩
  refine ⟨?_, ?_, h.spent_root, ?_, h.spent_apart⟩
  · intro j kj hj
    rcases update_eq_some hj with ⟨rfl, hsome⟩ | ⟨-, hj⟩
    · cases hsome
      exact ⟨r, hr, hk r hrk⟩
    · exact h.live_root j kj hj
  · intro j j' kj kj' x hj hj' hx hx'
    obtain ⟨k₁, h₁, hx₁⟩ := hbefore j kj hj
    obtain ⟨k₂, h₂, hx₂⟩ := hbefore j' kj' hj'
    exact h.live_inj j j' k₁ k₂ x h₁ h₂ (hx₁ x hx) (hx₂ x hx')
  · intro ks hks j kj x hj hx hxj
    obtain ⟨k₁, h₁, hx₁⟩ := hbefore j kj hj
    exact h.spent_live ks hks j k₁ x h₁ hx (hx₁ x hxj)

/-- A holder draws a fresh root, and has a secret of it or none. -/
theorem Inv.draw (h : l.Inv rooted) {i : I} {r : R} (hr : r ∉ l.drawn) {new : Option K}
    (hnew : ∀ k, new = some k → rooted r k) :
    Inv rooted { l with drawn := l.drawn ++ [r], live := update l.live i new } := by
  -- no secret from before has the new root
  have hold : ∀ k, (∃ x ∈ l.drawn, rooted x k) → ¬rooted r k := by
    rintro k ⟨x, hx, hxk⟩ hrk
    exact hr (hunique x r k hxk hrk ▸ hx)
  have hmem : ∀ k, (∃ x ∈ l.drawn, rooted x k) → ∃ x ∈ l.drawn ++ [r], rooted x k := by
    rintro k ⟨x, hx, hxk⟩
    exact ⟨x, mem_append_left _ hx, hxk⟩
  -- and the new secret has no root from before
  have hfresh : ∀ k x, new = some k → rooted x k → x = r :=
    fun k x hk hx => hunique x r k hx (hnew k hk)
  refine ⟨?_, ?_, fun k hk => hmem k (h.spent_root k hk), ?_, h.spent_apart⟩
  · intro j k hj
    rcases update_eq_some hj with ⟨-, hsome⟩ | ⟨-, hj⟩
    · exact ⟨r, by simp, hnew k hsome⟩
    · exact hmem k (h.live_root j k hj)
  · intro j j' k k' x hj hj' hx hx'
    rcases update_eq_some hj with ⟨hji, hsome⟩ | ⟨-, hj⟩ <;>
      rcases update_eq_some hj' with ⟨hji', hsome'⟩ | ⟨-, hj'⟩
    · rw [hji, hji']
    · exact absurd (hfresh k x hsome hx ▸ hx') (hold k' (h.live_root j' k' hj'))
    · exact absurd (hfresh k' x hsome' hx' ▸ hx) (hold k (h.live_root j k hj))
    · exact h.live_inj j j' k k' x hj hj' hx hx'
  · intro ks hks j k x hj hx hxk
    rcases update_eq_some hj with ⟨-, hsome⟩ | ⟨-, hj⟩
    · exact hold ks (h.spent_root ks hks) (hfresh k x hsome hxk ▸ hx)
    · exact h.spent_live ks hks j k x hj hx hxk

end Lineage

end AmneziaWG.Lib
