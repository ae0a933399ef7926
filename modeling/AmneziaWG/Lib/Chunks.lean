import Mathlib.Data.List.Basic

/-!
# Cutting a List into Chunks

A list is cut into chunks of one size, the last of which may be shorter.  Lists that could
have been cut so are recovered from their concatenation.

## Main results

- `chunks_flatten`: cutting inverts concatenation on lists of this form.
-/

namespace AmneziaWG.Lib

open List Nat

variable {α : Type}
variable {n : ℕ} {cs : List (List α)} {c l : List α}

/-- Cut `l` into chunks of `n` elements, at most `fuel` of them. -/
def chunksFrom (n : ℕ) : ℕ → List α → List (List α)
  | 0, _ => []
  | _, [] => []
  | fuel + 1, l => l.take n :: chunksFrom n fuel (l.drop n)

def chunks (n : ℕ) (l : List α) : List (List α) := chunksFrom n l.length l

/-- Chunks of `n` elements, the last with at least one and at most `n`. -/
def Chunked (n : ℕ) : List (List α) → Prop
  | [] => False
  | [c] => 0 < c.length ∧ c.length ≤ n
  | c :: d :: cs => c.length = n ∧ Chunked n (d :: cs)

theorem Chunked.pos (h : Chunked n cs) : 0 < n := by
  induction cs with
  | nil => cases h
  | cons c cs ih =>
    cases cs with
    | nil => exact Nat.lt_of_lt_of_le h.1 h.2
    | cons d cs => exact ih h.2

theorem Chunked.head_pos (h : Chunked n (c :: cs)) : 0 < c.length ∧ c.length ≤ n := by
  cases cs with
  | nil => exact h
  | cons d cs =>
    have hc : c.length = n := h.1
    rw [hc]
    exact ⟨h.pos, Nat.le_refl n⟩

theorem chunksFrom_flatten (h : Chunked n cs) {fuel : ℕ}
    (hfuel : cs.length ≤ fuel) : chunksFrom n fuel cs.flatten = cs := by
  induction cs generalizing fuel with
  | nil => cases h
  | cons c cs ih =>
    obtain ⟨fuel, rfl⟩ : ∃ k, fuel = k + 1 := ⟨fuel - 1, by
      simp only [length_cons] at hfuel
      omega⟩
    obtain ⟨x, xs, hx⟩ : ∃ x xs, c = x :: xs := exists_cons_of_length_pos h.head_pos.1
    have hstep : chunksFrom n (fuel + 1) (c :: cs).flatten =
        (c :: cs).flatten.take n :: chunksFrom n fuel ((c :: cs).flatten.drop n) := by
      rw [flatten_cons, hx]
      rfl
    rw [hstep, flatten_cons]
    cases cs with
    | nil =>
      -- the last chunk may be shorter
      rw [flatten_nil, append_nil, take_of_length_le h.2, drop_eq_nil_of_le h.2]
      cases fuel <;> rfl
    | cons d cs =>
      rw [take_left' h.1, drop_left' h.1, ih h.2 (le_of_succ_le_succ hfuel)]

theorem Chunked.length_le (h : Chunked n cs) : cs.length ≤ cs.flatten.length := by
  induction cs with
  | nil => exact Nat.le_refl 0
  | cons c cs ih =>
    have hc := h.head_pos.1
    rw [flatten_cons, length_append, length_cons]
    cases cs with
    | nil =>
      rw [length_nil]
      omega
    | cons d cs =>
      have := ih h.2
      omega

theorem chunks_flatten (h : Chunked n cs) : chunks n cs.flatten = cs :=
  chunksFrom_flatten h h.length_le

theorem chunksFrom_eq_chunks {fuel : ℕ} (hn : 0 < n) (h : l.length ≤ fuel * n) :
    chunksFrom n fuel l = chunks n l := by
  have hfuel : ∀ (fuel fuel' : ℕ) (l : List α), l.length ≤ fuel * n → l.length ≤ fuel' * n →
      chunksFrom n fuel l = chunksFrom n fuel' l := by
    intro fuel
    -- both counts are enough, whichever of them runs out first
    induction fuel with
    | zero =>
      intro fuel' l hl _
      rw [Nat.zero_mul, Nat.le_zero, List.length_eq_zero_iff] at hl
      subst hl
      cases fuel' <;> rfl
    | succ fuel ih =>
      intro fuel' l hl hl'
      cases l with
      | nil => cases fuel' <;> rfl
      | cons x xs =>
        cases fuel' with
        | zero => simp at hl'
        | succ fuel' =>
          rw [succ_mul] at hl hl'
          rw [chunksFrom, chunksFrom, ih fuel' ((x :: xs).drop n)]
          · rw [length_drop]
            omega
          · rw [length_drop]
            omega
          · simp
          · simp
  exact hfuel _ _ _ h (Nat.le_mul_of_pos_right _ hn)

@[simp] theorem chunks_nil (n : ℕ) : chunks n ([] : List α) = [] := rfl

theorem chunks_eq_cons (hn : 0 < n) (hl : l ≠ []) :
    chunks n l = l.take n :: chunks n (l.drop n) := by
  obtain ⟨x, xs, rfl⟩ := exists_cons_of_ne_nil hl
  have hdrop : ((x :: xs).drop n).length ≤ xs.length * n := by
    have := Nat.le_mul_of_pos_right xs.length hn
    rw [length_drop, length_cons]
    omega
  rw [← chunksFrom_eq_chunks hn hdrop]
  rfl

/-- The number of chunks, as the quotient rounded up. -/
theorem exists_chunk_count {a : ℕ} (ha : 0 < a) (hn : 0 < n) :
    ∃ k, k * n < a ∧ a ≤ (k + 1) * n ∧ (a + n - 1) / n = k + 1 := by
  refine ⟨(a - 1) / n, ?_, ?_, ?_⟩
  · have := div_mul_le_self (a - 1) n
    omega
  · have := lt_mul_div_succ (a - 1) hn
    rw [Nat.mul_comm] at this
    omega
  · rw [show a + n - 1 = a - 1 + n by omega, add_div_right _ hn]

theorem length_chunksFrom {k : ℕ} (hlow : k * n < l.length)
    (hhigh : l.length ≤ (k + 1) * n) : (chunksFrom n (k + 1) l).length = k + 1 := by
  induction k generalizing l with
  | zero =>
    obtain ⟨x, xs, rfl⟩ : ∃ x xs, l = x :: xs :=
      exists_cons_of_length_pos (by omega)
    rfl
  | succ k ih =>
    obtain ⟨x, xs, rfl⟩ : ∃ x xs, l = x :: xs :=
      exists_cons_of_length_pos (by omega)
    rw [succ_mul] at hlow
    rw [succ_mul] at hhigh
    have hdrop := length_drop (i := n) (l := x :: xs)
    rw [chunksFrom, length_cons, ih]
    · omega
    · omega
    · simp

theorem length_chunks (hn : 0 < n) (hl : 0 < l.length) :
    (chunks n l).length = (l.length + n - 1) / n := by
  obtain ⟨k, hlow, hhigh, hcount⟩ := exists_chunk_count hl hn
  rw [hcount, ← chunksFrom_eq_chunks hn hhigh, length_chunksFrom hlow hhigh]

/-- All chunks but the last are full, so that the number of chunks bounds the length. -/
theorem Chunked.flatten_length (h : Chunked n cs) :
    n * (cs.length - 1) < cs.flatten.length ∧ cs.flatten.length ≤ n * cs.length := by
  induction cs with
  | nil => cases h
  | cons c cs ih =>
    cases cs with
    | nil =>
      obtain ⟨hpos, hle⟩ := h
      simpa using ⟨hpos, hle⟩
    | cons d cs =>
      obtain ⟨hc, htail⟩ := h
      have := ih htail
      simp only [List.flatten_cons, List.length_append, List.length_cons, Nat.add_sub_cancel,
        Nat.mul_add, Nat.mul_one] at this ⊢
      omega

theorem Chunked.append (h : Chunked n cs)
    (hfull : cs.flatten.length % n = 0) (hpos : 0 < c.length) (hle : c.length ≤ n) :
    Chunked n (cs ++ [c]) := by
  induction cs with
  | nil => cases h
  | cons d cs ih =>
    cases cs with
    | nil =>
      -- one chunk of at most `n` elements, a multiple of `n`
      rw [flatten_cons, flatten_nil, append_nil] at hfull
      have hd : d.length = n := by
        rcases Nat.lt_or_eq_of_le h.2 with hlt | heq
        · rw [mod_eq_of_lt hlt] at hfull
          exact absurd hfull (Nat.ne_of_gt h.1)
        · exact heq
      exact ⟨hd, hpos, hle⟩
    | cons d' cs =>
      obtain ⟨hd, htail⟩ := h
      refine ⟨hd, ih htail ?_⟩
      rwa [flatten_cons, length_append, hd, add_mod_left] at hfull

theorem Chunked.cons (h : Chunked n cs) (hc : c.length = n) : Chunked n (c :: cs) := by
  cases cs with
  | nil => cases h
  | cons d cs => exact ⟨hc, h⟩

end AmneziaWG.Lib
