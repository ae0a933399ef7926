import Mathlib.Data.List.Forall2

/-!
# Computations That Can Fail

What the success of a computation in `Option` or `Except` says about its parts.
-/

namespace AmneziaWG.Lib

open List Option

variable {α β ε : Type}

theorem bind_ne_none_iff {x : Option α} {f : α → Option β} :
    x.bind f ≠ none ↔ ∃ a, x = some a ∧ f a ≠ none := by
  cases x with
  | none => simp
  | some a => simp

theorem ite_some_ne_none_iff {c : Prop} [Decidable c] {a : α} :
    (if c then some a else none) ≠ none ↔ c := by
  simp

theorem exists_of_bind_eq_ok {x : Except ε α} {f : α → Except ε β} {b : β} (h : x >>= f = .ok b) :
    ∃ a, x = .ok a ∧ f a = .ok b := by
  cases x with
  | error err => cases h
  | ok a => exact ⟨a, rfl, h⟩

theorem ok_of_toOption {x : Except ε α} {a : α} (h : x.toOption = some a) : x = .ok a := by
  cases x with
  | error err => cases h
  | ok a' => exact congrArg Except.ok (some.inj h)

/-! ## Lists -/

variable {l l' : List α} {r : List β}

theorem exists_of_mapM_cons {f : α → Option β} {a : α} (h : (a :: l).mapM f = some r) :
    ∃ b bs, f a = some b ∧ l.mapM f = some bs ∧ r = b :: bs := by
  rw [mapM_cons] at h
  obtain ⟨b, hb, h⟩ := bind_eq_some_iff.mp h
  obtain ⟨bs, hbs, h⟩ := bind_eq_some_iff.mp h
  cases h
  exact ⟨b, bs, hb, hbs, rfl⟩

theorem exists_of_mapM_append {f : α → Option β} (h : (l ++ l').mapM f = some r) :
    ∃ s s', l.mapM f = some s ∧ l'.mapM f = some s' ∧ r = s ++ s' := by
  rw [mapM_append] at h
  obtain ⟨s, hs, h⟩ := bind_eq_some_iff.mp h
  obtain ⟨s', hs', h⟩ := bind_eq_some_iff.mp h
  cases h
  exact ⟨s, s', hs, hs', rfl⟩

theorem filterMap_of_mapM {f : α → Option β} (h : l.mapM f = some r) : l.filterMap f = r := by
  induction l generalizing r with
  | nil =>
    cases h
    rfl
  | cons a l ih =>
    obtain ⟨b, bs, hb, hbs, rfl⟩ := exists_of_mapM_cons h
    rw [filterMap_cons_some hb, ih hbs]

theorem forall₂_of_mapM_eq_ok {f : α → Except ε β} (h : l.mapM f = .ok r) :
    List.Forall₂ (fun a b => f a = .ok b) l r := by
  induction l generalizing r with
  | nil =>
    cases h
    exact .nil
  | cons a l ih =>
    rw [mapM_cons] at h
    obtain ⟨b, hb, h⟩ := exists_of_bind_eq_ok h
    obtain ⟨bs, hbs, hcons⟩ := exists_of_bind_eq_ok h
    cases hcons
    exact .cons hb (ih hbs)

theorem exists_of_mem_right {R : α → β → Prop} (h : List.Forall₂ R l r) {b : β} (hb : b ∈ r) :
    ∃ a ∈ l, R a b := by
  induction h with
  | nil => cases hb
  | cons hab _ ih =>
    rcases mem_cons.mp hb with rfl | hb
    · exact ⟨_, mem_cons_self, hab⟩
    · obtain ⟨a, ha, hab⟩ := ih hb
      exact ⟨a, mem_cons_of_mem _ ha, hab⟩

end AmneziaWG.Lib
