import Mathlib.Data.List.Basic

/-!
# Slices of a Memory

A memory gives a cell for every address.  A slice is a run of cells that may grow in place up to its
capacity; slices whose capacities do not overlap do not see each other's writes.
-/

namespace AmneziaWG.Lib

open List Nat

variable {α : Type}

/-- `len` cells from `ptr` on, in an array that has room for `cap`. -/
structure Slice where
  ptr : ℕ
  len : ℕ
  cap : ℕ
  len_le : len ≤ cap

/-- The memory with `cells` written from `ptr` on. -/
def store (mem : ℕ → α) (ptr : ℕ) (cells : List α) : ℕ → α :=
  fun a => if ptr ≤ a then cells[a - ptr]?.getD (mem a) else mem a

theorem store_at (mem : ℕ → α) (ptr : ℕ) (cells : List α) {i : ℕ} (hi : i < cells.length) :
    store mem ptr cells (ptr + i) = cells[i] := by
  simp [store, hi]

theorem store_outside (mem : ℕ → α) {ptr : ℕ} {cells : List α} {a : ℕ}
    (ha : a < ptr ∨ ptr + cells.length ≤ a) : store mem ptr cells a = mem a := by
  unfold store
  split
  · rw [getElem?_eq_none (by omega)]
    rfl
  · rfl

namespace Slice

def read (s : Slice) (mem : ℕ → α) : List α := List.ofFn fun i : Fin s.len => mem (s.ptr + i)

def Disjoint (s t : Slice) : Prop := s.ptr + s.cap ≤ t.ptr ∨ t.ptr + t.cap ≤ s.ptr

theorem Disjoint.symm {s t : Slice} (h : s.Disjoint t) : t.Disjoint s := Or.symm h

/-- The slice with `n` more cells of its array. -/
def extend (s : Slice) (n : ℕ) (h : n ≤ s.cap - s.len) : Slice :=
  { s with
    len := s.len + n
    len_le := by
      have := s.len_le
      omega }

section

variable (s : Slice) (mem : ℕ → α)

@[simp] theorem length_read : (s.read mem).length = s.len := by
  simp [read]

/-- A write within the capacity of a slice is not seen by a slice with another array. -/
theorem read_store_of_disjoint {s t : Slice} (h : s.Disjoint t) (mem : ℕ → α) {ptr : ℕ}
    {cells : List α} (hlow : s.ptr ≤ ptr) (hhigh : ptr + cells.length ≤ s.ptr + s.cap) :
    t.read (store mem ptr cells) = t.read mem := by
  have hlen := t.len_le
  unfold read
  congr 1
  funext i
  apply store_outside
  have := i.isLt
  rcases h with h | h <;> omega

theorem read_extend {cells : List α} {n : ℕ} (hn : cells.length = n) (h : n ≤ s.cap - s.len) :
    (s.extend n h).read (store mem (s.ptr + s.len) cells) = s.read mem ++ cells := by
  subst hn
  apply ext_getElem
  · simp [extend]
  · intro i hi hi'
    simp only [read, List.getElem_ofFn, extend]
    by_cases hold : i < s.len
    · -- an old cell
      rw [store_outside _ (.inl (by omega)), List.getElem_append_left (by simpa using hold)]
      simp
    · have hlen : i < s.len + cells.length := by simpa [extend] using hi
      rw [List.getElem_append_right (by simpa using Nat.le_of_not_lt hold)]
      simp only [length_ofFn]
      rw [show s.ptr + i = s.ptr + s.len + (i - s.len) by omega,
        store_at _ _ _ (by omega)]

theorem take_read_store {cells : List α} (h : cells.length ≤ s.len) :
    (s.read (store mem s.ptr cells)).take cells.length = cells := by
  apply List.ext_getElem
  · simp [Nat.min_eq_left h]
  · intro i hi hi'
    simp only [read, List.getElem_take, List.getElem_ofFn]
    exact store_at _ _ _ hi'

theorem drop_take_read {start stop : ℕ} (h : stop ≤ s.len) : ((s.read mem).take stop).drop start =
      (List.range (stop - start)).map fun j => mem (s.ptr + start + j) := by
  apply List.ext_getElem
  · simp [Nat.min_eq_left h]
  · intro i hi hi'
    simp [read, Nat.add_assoc]

end

end Slice

end AmneziaWG.Lib
