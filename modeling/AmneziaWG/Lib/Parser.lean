import AmneziaWG.Lib.Patch

/-!
# Parsers of Binary Formats

A parser takes what it needs from the front of its input.  `Consumes p b a` says that `p` takes the
bytes `b`, whatever stands behind them, and makes `a` of them; a format is described by one such
fact for each of its parsers, and the facts compose along the parser.

## Main results

- `Consumes.bind`, `Consumes.times`: a sequence and a counted run.
- `consumes_items`: items that make up a field of known length.
-/

namespace AmneziaWG.Lib

open List Option BitVec

/-- A parser: a value and the bytes behind what has been read. -/
abbrev Parser (α : Type) : Type := StateT Bytes Option α

/-- The parser reads exactly `b` and returns `a`. -/
def Consumes {α : Type} (p : Parser α) (b : Bytes) (a : α) : Prop :=
  ∀ rest, p.run (b ++ rest) = some (a, rest)

section Rules

variable {α β : Type} {p : Parser α} {f : α → Parser β} {b c : Bytes} {a : α} {v : β}

theorem Consumes.pure (a : α) : Consumes (Pure.pure a) [] a := fun _ => rfl

theorem Consumes.bind (hp : Consumes p b a) (hf : Consumes (f a) c v) :
    Consumes (p >>= f) (b ++ c) v := by
  intro rest
  rw [StateT.run_bind, List.append_assoc, hp, Option.bind_eq_bind, Option.bind_some]
  exact hf rest

theorem Consumes.bind_last (hp : Consumes p b a) (hf : Consumes (f a) [] v) :
    Consumes (p >>= f) b v := by
  have h := hp.bind hf
  rwa [append_nil] at h

theorem Consumes.bind_pure {g : α → β} (hp : Consumes p b a) :
    Consumes (p >>= fun a => Pure.pure (g a)) b (g a) :=
  hp.bind_last (Consumes.pure (g a))

theorem Consumes.run (hp : Consumes p b a) : p.run b = some (a, []) := by
  have h := hp []
  rwa [append_nil] at h

end Rules

/-! ## §1 Fields -/

def takeBytes (n : ℕ) : Parser Bytes := fun s =>
  if n ≤ s.length then some (s.take n, s.drop n) else none

def takeByte : Parser Byte
  | [] => none
  | b :: rest => some (b, rest)

/-- The next two bytes as a number, the most significant first. -/
def takeBE16 : Parser (BitVec 16) := do
  let b ← takeBytes 2
  return BitVec.ofNat 16 (beNat b)

def require (c : Prop) [Decidable c] : Parser Unit := fun s => if c then some ((), s) else none

theorem consumes_takeBytes {b : Bytes} {n : ℕ} (h : b.length = n) : Consumes (takeBytes n) b b := by
  intro rest
  subst h
  show (if b.length ≤ (b ++ rest).length then some ((b ++ rest).take b.length,
    (b ++ rest).drop b.length) else none) = _
  rw [if_pos (by rw [length_append]; omega), take_left' rfl, drop_left' rfl]

theorem consumes_takeByte (b : Byte) : Consumes takeByte [b] b := fun _ => rfl

theorem consumes_takeBE16 (v : BitVec 16) : Consumes takeBE16 (be16 v) v := by
  have h : Consumes takeBE16 (be16 v) (BitVec.ofNat 16 (beNat (be16 v))) :=
    (consumes_takeBytes (be16_length v)).bind_pure
  rwa [beNat_be16, ofNat_toNat, setWidth_eq] at h

theorem consumes_require {c : Prop} [Decidable c] (h : c) : Consumes (require c) [] () := by
  intro rest
  show (if c then some ((), [] ++ rest) else none) = _
  rw [if_pos h]
  rfl

/-! ## §2 Runs of items -/

section Items

variable {α : Type}
variable {p : Parser α} {l : List (Bytes × α)}

/-- `n` items, one behind the other. -/
def times (p : Parser α) : ℕ → Parser (List α)
  | 0 => pure []
  | n + 1 => do
    let a ← p
    let as ← times p n
    return a :: as

/-- The items that make up a field.  There are at most `fuel`. -/
def itemsFrom (p : Parser α) : ℕ → Bytes → Option (List α)
  | _, [] => some []
  | 0, _ :: _ => none
  | fuel + 1, b :: rest => do
    let (a, rest) ← p.run (b :: rest)
    let as ← itemsFrom p fuel rest
    return a :: as

/-- The items that make up a field that has been read, where every item has at least one byte. -/
def items (p : Parser α) (b : Bytes) : Parser (List α) :=
  fun s => (itemsFrom p b.length b).map fun as => (as, s)

theorem Consumes.times (h : ∀ x ∈ l, Consumes p x.1 x.2) :
    Consumes (times p l.length) (l.map Prod.fst).flatten (l.map Prod.snd) := by
  induction l with
  | nil => exact Consumes.pure []
  | cons x l ih =>
    exact (h x mem_cons_self).bind ((ih fun y hy => h y (mem_cons_of_mem x hy)).bind_pure)

theorem itemsFrom_flatten (h : ∀ x ∈ l, Consumes p x.1 x.2 ∧ x.1 ≠ [])
    {fuel : ℕ} (hfuel : (l.map Prod.fst).flatten.length ≤ fuel) :
    itemsFrom p fuel (l.map Prod.fst).flatten = some (l.map Prod.snd) := by
  induction l generalizing fuel with
  | nil =>
    cases fuel <;> rfl
  | cons x l ih =>
    obtain ⟨hx, hne⟩ := h x mem_cons_self
    obtain ⟨b, rest, hb⟩ := exists_cons_of_ne_nil hne
    rw [map_cons, flatten_cons, length_append, hb, length_cons] at hfuel
    obtain ⟨fuel, rfl⟩ : ∃ k, fuel = k + 1 := ⟨fuel - 1, by omega⟩
    have hrun : p.run (b :: (rest ++ (l.map Prod.fst).flatten)) =
        some (x.2, (l.map Prod.fst).flatten) := by
      have := hx (l.map Prod.fst).flatten
      rwa [hb, List.cons_append] at this
    rw [List.map_cons, List.flatten_cons, hb, List.cons_append, itemsFrom, hrun]
    simp only [bind_eq_bind, bind_some]
    rw [ih (fun y hy => h y (mem_cons_of_mem x hy)) (by omega)]
    rfl

/-- Items one behind the other are found again. -/
theorem consumes_items (h : ∀ x ∈ l, Consumes p x.1 x.2 ∧ x.1 ≠ []) :
    Consumes (items p (l.map Prod.fst).flatten) [] (l.map Prod.snd) := by
  intro rest
  show (itemsFrom p _ (l.map Prod.fst).flatten).map _ = _
  rw [itemsFrom_flatten h (Nat.le_refl _)]
  rfl

end Items

end AmneziaWG.Lib
