import AmneziaWG.Lib.Bytes
import Mathlib.Data.Option.Basic

/-!
# Writing into Byte Buffers

Bounds-checked writes, for code that fills a buffer in place.  A write out of range ends the
computation (`none`).

The rules are about a buffer `done ++ rest` that is being filled from the left: a write at
`done.length` moves what it writes over to `done`.
-/

namespace AmneziaWG.Lib

open List Option Nat

/-! ## §1 Single writes -/

/-- Overwrite `buf[off:off+len(src)]`. -/
def writeAt (buf : Bytes) (off : ℕ) (src : Bytes) : Option Bytes :=
  if off + src.length ≤ buf.length then
    some (buf.take off ++ (src ++ buf.drop (off + src.length)))
  else none

theorem writeAt_done {done rest src : Bytes} {off : ℕ} (hoff : off = done.length)
    (hsrc : src.length ≤ rest.length) :
    writeAt (done ++ rest) off src = some ((done ++ src) ++ rest.drop src.length) := by
  have hfit : off + src.length ≤ (done ++ rest).length := by
    rw [length_append]
    omega
  rw [writeAt, if_pos hfit, hoff, take_left, drop_append, append_assoc]
  simp

theorem writeAt_zero {front rest src : Bytes} (hsrc : src.length = front.length) :
    writeAt (front ++ rest) 0 src = some (src ++ rest) := by
  have hfit : 0 + src.length ≤ (front ++ rest).length := by
    rw [length_append]
    omega
  rw [writeAt, if_pos hfit, zero_add, hsrc, drop_left]
  rfl

theorem writeAt_fits {buf buf' src : Bytes} {off : ℕ} (h : writeAt buf off src = some buf') :
    off + src.length ≤ buf.length := by
  unfold writeAt at h
  split_ifs at h with hfit
  exact hfit

theorem writeAt_length {buf buf' src : Bytes} {off : ℕ} (h : writeAt buf off src = some buf') :
    buf'.length = buf.length := by
  unfold writeAt at h
  split_ifs at h with hfit
  cases h
  simp only [length_append, length_take, length_drop]
  omega

theorem writeAt_writeAt (buf a b : Bytes) {off off' : ℕ} (hoff : off' = off + a.length) :
    ((writeAt buf off a).bind fun buf => writeAt buf off' b) = writeAt buf off (a ++ b) := by
  by_cases ha : off + a.length ≤ buf.length
  · have hsplit : writeAt buf off a = some ((buf.take off ++ a) ++ buf.drop (off + a.length)) := by
      rw [writeAt, if_pos ha, append_assoc]
    have hlen : off' = (buf.take off ++ a).length := by
      rw [length_append, length_take, hoff]
      omega
    rw [hsplit, bind_some]
    by_cases hb : off + (a ++ b).length ≤ buf.length
    · have hrest : b.length ≤ (buf.drop (off + a.length)).length := by
        rw [length_append] at hb
        rw [length_drop]
        omega
      rw [writeAt_done hlen hrest, writeAt, if_pos hb, drop_drop, length_append, add_assoc]
      simp
    · have hb' : ¬off' + b.length ≤ (buf.take off ++ a ++ buf.drop (off + a.length)).length := by
        simp only [length_append, length_take, length_drop] at hb ⊢
        omega
      rw [writeAt, if_neg hb', writeAt, if_neg hb]
  · have hab : ¬off + (a ++ b).length ≤ buf.length := by
      rw [length_append]
      omega
    rw [writeAt, if_neg ha, writeAt, if_neg hab]
    rfl

theorem writeAt_bind_writeAt {α : Type} (buf a b : Bytes) {off off' : ℕ}
    (hoff : off' = off + a.length) (k : Bytes → Option α) :
    ((writeAt buf off a).bind fun buf => (writeAt buf off' b).bind k) =
      (writeAt buf off (a ++ b)).bind k := by
  rw [← writeAt_writeAt buf a b hoff, bind_assoc]

/-! ## §2 Loops of writes -/

variable {σ : Type}
variable {done rest src buf : Bytes} {off n : ℕ} {α : Type} {x : Option α}

def generate (g : σ → Byte × σ) : ℕ → σ → Bytes
  | 0, _ => []
  | n + 1, s => (g s).1 :: generate g n (g s).2

@[simp] theorem generate_length (g : σ → Byte × σ) (n : ℕ) (s : σ) :
    (generate g n s).length = n := by
  induction n generalizing s with
  | zero => rfl
  | succ n ih => simp [generate, ih]

/-- `for i := off; i < off+n; i++ { buf[i] = … }`, with the bytes of a generator. -/
def writeLoop (g : σ → Byte × σ) : ℕ → σ → ℕ → Bytes → Option Bytes
  | 0, _, _, buf => some buf
  | n + 1, s, i, buf => do
    let buf ← writeAt buf i [(g s).1]
    writeLoop g n (g s).2 (i + 1) buf

theorem writeLoop_done (g : σ → Byte × σ) (s : σ)
    (hoff : off = done.length) (hn : n ≤ rest.length) :
    writeLoop g n s off (done ++ rest) = some ((done ++ generate g n s) ++ rest.drop n) := by
  -- one iteration moves one byte from `rest` to `done`
  induction n generalizing s done rest off with
  | zero => simp [writeLoop, generate]
  | succ n ih =>
    have hone : [(g s).1].length ≤ rest.length := le_trans (succ_le_succ n.zero_le) hn
    rw [writeLoop, writeAt_done hoff hone]
    have hdone : off + 1 = (done ++ [(g s).1]).length := by simp [hoff]
    have hrest : n ≤ (rest.drop 1).length := by
      rw [length_drop]
      omega
    show writeLoop g n (g s).2 (off + 1) ((done ++ [(g s).1]) ++ rest.drop 1) = _
    rw [ih (g s).2 hdone hrest, drop_drop, add_comm 1 n]
    simp [generate]

theorem writeLoop_none (g : σ → Byte × σ) (s : σ)
    (hoff : off ≤ buf.length) (hn : buf.length < off + n) : writeLoop g n s off buf = none := by
  induction n generalizing s off buf with
  | zero => omega
  | succ n ih =>
    rw [writeLoop]
    cases hwrite : writeAt buf off [(g s).1] with
    | none => rfl
    | some buf' =>
      -- the write was in range, so the loop ends later
      have hfit : off + 1 ≤ buf.length := writeAt_fits hwrite
      have hlen := writeAt_length hwrite
      exact ih (g s).2 (by omega) (by omega)

/-- `for i := off; i < off+n; i++ { buf[i] = b }`. -/
def fillLoop (b : Byte) (n off : ℕ) (buf : Bytes) : Option Bytes :=
  writeLoop (fun _ : Unit => (b, ())) n () off buf

theorem generate_const (b : Byte) (n : ℕ) :
    generate (fun _ : Unit => (b, ())) n () = List.replicate n b := by
  induction n with
  | zero => rfl
  | succ n ih => rw [generate, ih, replicate_succ]

theorem fillLoop_done (b : Byte) (hoff : off = done.length) (hn : n ≤ rest.length) :
    fillLoop b n off (done ++ rest) = some ((done ++ List.replicate n b) ++ rest.drop n) := by
  rw [fillLoop, writeLoop_done _ () hoff hn, generate_const]

theorem writeAt_fillLoop (b : Byte) (hsrc : src.length ≤ buf.length) :
    ((writeAt buf 0 src).bind (fillLoop b (buf.length - src.length) src.length)) =
      some (src ++ List.replicate (buf.length - src.length) b) := by
  have hwrite : writeAt ([] ++ buf) 0 src = some (([] ++ src) ++ buf.drop src.length) :=
    writeAt_done rfl hsrc
  rw [nil_append, nil_append] at hwrite
  rw [hwrite, bind_some, ← length_drop, fillLoop_done b rfl (le_refl _), drop_length, append_nil]

/-! ## §3 Iteration over a mutable slice -/

/-- `for byte in slice.iter_mut() { *byte = … }`, with the bytes of a generator. -/
def iterMut (g : σ → Byte × σ) : σ → Bytes → Bytes
  | _, [] => []
  | s, _ :: rest => (g s).1 :: iterMut g (g s).2 rest

theorem iterMut_eq (g : σ → Byte × σ) (s : σ) (slice : Bytes) :
    iterMut g s slice = generate g slice.length s := by
  induction slice generalizing s with
  | nil => rfl
  | cons b rest ih => rw [iterMut, ih, length_cons, generate]

/-- `for byte in slice.iter_mut() { *byte = b }`. -/
def iterFill (b : Byte) (slice : Bytes) : Bytes :=
  iterMut (fun _ : Unit => (b, ())) () slice

/-- Change `buf[low..high]` in place. -/
def onRange (buf : Bytes) (low high : ℕ) (f : Bytes → Bytes) : Option Bytes :=
  if low ≤ high ∧ high ≤ buf.length then
    some (buf.take low ++ (f ((buf.take high).drop low) ++ buf.drop high))
  else none

theorem onRange_done {low high : ℕ} (f : Bytes → Bytes)
    (hlow : low = done.length) (hle : low ≤ high) (hhigh : high - low ≤ rest.length) :
    onRange (done ++ rest) low high f =
      some ((done ++ f (rest.take (high - low))) ++ rest.drop (high - low)) := by
  have hfit : low ≤ high ∧ high ≤ (done ++ rest).length := by
    rw [length_append]
    omega
  subst hlow
  have htake : (done ++ rest).take high = done ++ rest.take (high - done.length) := by
    rw [take_append, take_of_length_le hle]
  have hdrop : (done ++ rest).drop high = rest.drop (high - done.length) := by
    rw [drop_append, drop_eq_nil_of_le hle, nil_append]
  rw [onRange, if_pos hfit, take_left, htake, drop_left, hdrop, append_assoc]

theorem writeLoop_eq_onRange (g : σ → Byte × σ) (s : σ) (hoff : off ≤ buf.length) :
    writeLoop g n s off buf = onRange buf off (off + n) (iterMut g s) := by
  by_cases hn : off + n ≤ buf.length
  · have hsplit : buf = buf.take off ++ buf.drop off := (take_append_drop off buf).symm
    have hdone : off = (buf.take off).length := by
      rw [length_take]
      omega
    have hrest : n ≤ (buf.drop off).length := by
      rw [length_drop]
      omega
    have hslice : ((buf.drop off).take n).length = n := by
      rw [length_take]
      omega
    rw [hsplit, writeLoop_done g s hdone hrest, onRange_done _ hdone (le_add_right _ _)
      (by rwa [Nat.add_sub_cancel_left]), Nat.add_sub_cancel_left, iterMut_eq, hslice]
  · rw [writeLoop_none g s hoff (Nat.lt_of_not_le hn), onRange, if_neg (fun h => hn h.2)]

theorem fillLoop_eq_onRange (b : Byte) (hoff : off ≤ buf.length) (hn : n = buf.length - off) :
    fillLoop b n off buf = onRange buf off buf.length (iterFill b) := by
  have hend : off + n = buf.length := by omega
  rw [fillLoop, writeLoop_eq_onRange _ _ hoff, hend]
  rfl

/-- `copy(dst, src)`: as much of `src` as fits. -/
def copyBytes (dst src : Bytes) : Bytes := src.take dst.length ++ dst.drop src.length

@[simp] theorem copyBytes_length (dst src : Bytes) : (copyBytes dst src).length = dst.length := by
  rw [copyBytes, length_append, length_take, length_drop]
  omega

theorem copyBytes_of_length_eq {dst : Bytes} (h : src.length = dst.length) :
    copyBytes dst src = src := by
  rw [copyBytes, ← h, take_length, h, drop_length, append_nil]

def Yields (x : Option Bytes) (n : ℕ) : Prop := ∃ out, x = some out ∧ out.length = n

theorem Yields.bind {x : Option Bytes} {f : Bytes → Option Bytes} {m : ℕ} (h : Yields x n)
    (hf : ∀ out, out.length = n → Yields (f out) m) : Yields (x >>= f) m := by
  obtain ⟨out, rfl, hout⟩ := h
  exact hf out hout

theorem Yields.some {out : Bytes} (h : out.length = n) : Yields (some out) n :=
  ⟨out, rfl, h⟩

/-- The largest allocation of the runtime on 64-bit systems (`maxAlloc`). -/
def maxAlloc : ℤ := 2 ^ 48

/-- `make([]byte, n)`. -/
def makeBytes (n : ℤ) : Option Bytes :=
  if 0 ≤ n ∧ n ≤ maxAlloc then some (List.replicate n.toNat 0) else none

theorem makeBytes_eq {n : ℤ} (h₀ : 0 ≤ n) (h : n ≤ maxAlloc) :
    ∃ buf, makeBytes n = some buf ∧ (buf.length : ℤ) = n := by
  refine ⟨_, if_pos ⟨h₀, h⟩, ?_⟩
  rw [length_replicate]
  exact Int.toNat_of_nonneg h₀

theorem of_makeBytes {n : ℤ} (h : makeBytes n = some buf) :
    0 ≤ n ∧ n ≤ maxAlloc ∧ (buf.length : ℤ) = n := by
  unfold makeBytes at h
  split at h
  · next hn =>
    cases h
    refine ⟨hn.1, hn.2, ?_⟩
    rw [length_replicate]
    exact Int.toNat_of_nonneg hn.1
  · cases h

/-- `rand.Int`, which panics on a bound that is not positive.  `draw` stands for the bytes of the
random source. -/
def randInt (draw : ℕ) (max : ℤ) : Option ℤ := if 0 < max then some (draw % max) else none

/-! ## §4 Big-endian words -/

/-- `binary.BigEndian.PutUint16`. -/
def be16 (v : BitVec 16) : Bytes := [(v >>> 8).setWidth 8, v.setWidth 8]

/-- `binary.BigEndian.PutUint32`. -/
def be32 (v : BitVec 32) : Bytes :=
  [(v >>> 24).setWidth 8, (v >>> 16).setWidth 8, (v >>> 8).setWidth 8, v.setWidth 8]

@[simp] theorem be16_length (v : BitVec 16) : (be16 v).length = 2 := rfl

@[simp] theorem be32_length (v : BitVec 32) : (be32 v).length = 4 := rfl

/-- `a &^ b`. -/
def andNot (a b : ℕ) : ℕ := a - (a &&& b)

theorem andNot_le (a b : ℕ) : andNot a b ≤ a := sub_le _ _

/-! ## §5 Two computations side by side -/

/-- Computations that stay related step by step have related results. -/
theorem rel_bind {β γ δ : Type} {r : α → β → Prop} {r' : γ → δ → Prop}
    {y : Option β} {f : α → Option γ} {g : β → Option δ} (hxy : Option.Rel r x y)
    (hfg : ∀ a b, r a b → Option.Rel r' (f a) (g b)) : Option.Rel r' (x.bind f) (y.bind g) := by
  cases hxy with
  | none => exact .none
  | some h => exact hfg _ _ h

theorem rel_map {β γ δ : Type} {r : α → β → Prop} {r' : γ → δ → Prop}
    {y : Option β} {f : α → γ} {g : β → δ} (hxy : Option.Rel r x y)
    (hfg : ∀ a b, r a b → r' (f a) (g b)) : Option.Rel r' (x.map f) (y.map g) := by
  cases hxy with
  | none => exact .none
  | some h => exact .some (hfg _ _ h)

theorem rel_refl {r : α → α → Prop} (hr : ∀ a, r a a) (x : Option α) : Option.Rel r x x := by
  cases x with
  | none => exact .none
  | some a => exact .some (hr a)

theorem eq_of_rel {y : Option α} (h : Option.Rel (· = ·) x y) : x = y := by
  cases h with
  | none => rfl
  | some h => rw [h]

end AmneziaWG.Lib
