import AmneziaWG.Lib.Text

/-!
# Readers on a Stream That Arrives in Reads

A byte stream as `bufio` readers see it.  Every byte knows whether the read that returned it ends
with it: a reader with a buffer holds the bytes up to that place, and a second reader on top of the
first takes them all when it asks for more.  How long a read can be is left open.

## Main results

- `readString_append`: a line is read across the ends of reads.
- `skipRead_eq_iff`: when the bytes that a reader on top has taken end with a given part of the
  stream.
-/

namespace AmneziaWG.Lib

open List Option

/-! ## §1 Reads -/

/-- The bytes of a stream, each with whether a read ends with it. -/
abbrev Incoming : Type := List (Byte × Bool)

def markRead : Bytes → Incoming
  | [] => []
  | [b] => [(b, true)]
  | b :: b' :: bs => (b, false) :: markRead (b' :: bs)

/-- A stream that arrives in the given reads.  A read that returns nothing is repeated. -/
def marks (reads : List Bytes) : Incoming := reads.flatMap markRead

def contents (s : Incoming) : Bytes := s.map Prod.fst

section Marks

theorem contents_markRead (bs : Bytes) : contents (markRead bs) = bs := by
  induction bs with
  | nil => rfl
  | cons b bs ih =>
    cases bs with
    | nil => rfl
    | cons b' bs => exact congrArg (b :: ·) ih

theorem contents_append (s t : Incoming) : contents (s ++ t) = contents s ++ contents t :=
  map_append

theorem contents_marks (reads : List Bytes) : contents (marks reads) = reads.flatten := by
  induction reads with
  | nil => rfl
  | cons r reads ih =>
    have hcons : marks (r :: reads) = markRead r ++ marks reads := rfl
    rw [hcons, contents_append, contents_markRead, ih, flatten_cons]

theorem contents_length (s : Incoming) : (contents s).length = s.length := length_map ..

/-- The last byte of a stream is the last of its read. -/
def Closed (s : Incoming) : Prop := ∀ x, s.getLast? = some x → x.2 = true

theorem closed_markRead (bs : Bytes) : Closed (markRead bs) := by
  induction bs with
  | nil =>
    intro x hx
    cases hx
  | cons b bs ih =>
    cases bs with
    | nil =>
      intro x hx
      cases hx
      rfl
    | cons b' bs =>
      intro x hx
      have hne : markRead (b' :: bs) ≠ [] := by
        cases bs <;> simp [markRead]
      rw [markRead, getLast?_cons_of_ne_nil hne] at hx
      exact ih x hx

theorem Closed.append {s t : Incoming} (hs : Closed s) (ht : Closed t) : Closed (s ++ t) := by
  intro x hx
  rw [getLast?_append] at hx
  cases hlast : t.getLast? with
  | none =>
    rw [hlast, none_or] at hx
    exact hs x hx
  | some y =>
    rw [hlast, some_or] at hx
    cases hx
    exact ht _ hlast

theorem closed_marks (reads : List Bytes) : Closed (marks reads) := by
  induction reads with
  | nil =>
    intro x hx
    cases hx
  | cons r reads ih => exact (closed_markRead r).append ih

theorem Closed.of_append {s t : Incoming} (h : Closed (s ++ t)) : Closed t := by
  intro x hx
  apply h x
  rw [getLast?_append, hx, some_or]

end Marks

/-! ## §2 A buffered reader -/

/-- `ReadString('\n')`; `none` is the error at the end of the stream. -/
def readString : Incoming → Option (Bytes × Incoming)
  | [] => none
  | (b, _) :: s =>
    if b = 0x0a then some ([b], s)
    else (readString s).map fun (line, rest) => (b :: line, rest)

def readByte : Incoming → Option (Byte × Incoming)
  | [] => none
  | (b, _) :: s => some (b, s)

section ReadString

theorem readString_append {t : Incoming} (s : Incoming) {line : Bytes}
    (ht : contents t = line ++ [0x0a])
    (hline : (0x0a : Byte) ∉ line) : readString (t ++ s) = some (line ++ [0x0a], s) := by
  induction line generalizing t with
  | nil =>
    obtain ⟨⟨b, last⟩, rfl, rfl⟩ := map_eq_singleton_iff.mp ht
    simp [readString]
  | cons b line ih =>
    obtain ⟨⟨b', last⟩, t, rfl, rfl, htail⟩ := map_eq_cons_iff.mp ht
    have hb : b' ≠ 0x0a := fun h => hline (by rw [← h]; exact mem_cons_self)
    rw [cons_append, readString, if_neg hb, ih htail fun h => hline (mem_cons_of_mem _ h)]
    rfl

theorem readString_length {s rest : Incoming} {line : Bytes}
    (h : readString s = some (line, rest)) :
    s.length = line.length + rest.length ∧ line ≠ [] := by
  induction s generalizing line with
  | nil => cases h
  | cons x s ih =>
    obtain ⟨b, last⟩ := x
    rw [readString] at h
    split_ifs at h with hb
    · cases h
      exact ⟨by simp; omega, cons_ne_nil _ _⟩
    · obtain ⟨⟨line', rest'⟩, hread, heq⟩ := map_eq_some_iff.mp h
      cases heq
      have hlen := (ih hread).1
      exact ⟨by simp only [length_cons]; omega, cons_ne_nil _ _⟩

theorem contents_readString {s rest : Incoming} {line : Bytes}
    (h : readString s = some (line, rest)) :
    contents s = line ++ contents rest := by
  induction s generalizing line with
  | nil => cases h
  | cons x s ih =>
    obtain ⟨b, last⟩ := x
    rw [readString] at h
    split_ifs at h with hb
    · cases h
      rfl
    · obtain ⟨⟨line', rest'⟩, hread, heq⟩ := map_eq_some_iff.mp h
      cases heq
      exact congrArg (b :: ·) (ih hread)

theorem not_mem_of_readString {s : Incoming} (h : readString s = none) :
    (0x0a : Byte) ∉ contents s := by
  induction s with
  | nil => exact not_mem_nil
  | cons x s ih =>
    obtain ⟨b, last⟩ := x
    rw [readString] at h
    split_ifs at h with hb
    have hrest := ih (map_eq_none_iff.mp h)
    intro hmem
    rcases mem_cons.mp hmem with heq | hmem
    · exact hb heq.symm
    · exact hrest hmem

end ReadString

/-! ## §3 A reader on top -/

/-- What a reader on top leaves, after the byte that it needed last: the rest of that read is in its
own buffer.  `last` says whether the read ends with that byte. -/
def skipRead (last : Bool) : Incoming → Incoming
  | [] => []
  | (b, last') :: s => if last then (b, last') :: s else skipRead last' s

/-- From its `k`-th byte on, a read ends with the last byte of a part of the stream and with no
other. -/
def EndsWith (k : ℕ) (t : Incoming) : Prop :=
  (t.drop (k - 1)).map Prod.snd = List.replicate (t.length - k) false ++ [true]

section Skip

theorem endsWith_markRead {k : ℕ} {bs : Bytes} (hk : 1 ≤ k) (hle : k ≤ bs.length) :
    EndsWith k (markRead bs) := by
  -- no byte but the last ends the read
  have hflags : ∀ bs : Bytes, bs ≠ [] →
      (markRead bs).map Prod.snd = replicate (bs.length - 1) false ++ [true] := by
    intro bs hne
    induction bs with
    | nil => exact absurd rfl hne
    | cons b bs ih =>
      cases bs with
      | nil => rfl
      | cons b' bs =>
        rw [markRead, map_cons, ih (cons_ne_nil _ _)]
        rfl
  have hlen : (markRead bs).length = bs.length := by
    rw [← contents_length, contents_markRead]
  have hne : bs ≠ [] := ne_nil_of_length_pos (by omega)
  rw [EndsWith, map_drop, hflags bs hne, hlen, drop_append_of_le_length (by simp; omega),
    drop_replicate]
  congr 2
  omega

theorem skipRead_true (s : Incoming) : skipRead true s = s := by
  cases s <;> rfl

theorem skipRead_suffix (last : Bool) (s : Incoming) : skipRead last s <:+ s := by
  induction s generalizing last with
  | nil => exact suffix_rfl
  | cons x s ih =>
    obtain ⟨b, last'⟩ := x
    rw [skipRead]
    split_ifs
    · exact suffix_rfl
    · exact (ih last').trans (suffix_cons _ _)

/-- The bytes behind the needed one that are taken along end with `t` when a read ends there and
nowhere in between. -/
theorem skipRead_append_eq_iff {last : Bool} {t s : Incoming}
    (hclosed : s = [] → (∀ x, t.getLast? = some x → x.2 = true) ∧ (t = [] → last = true)) :
    skipRead last (t ++ s) = s ↔
      last :: t.map Prod.snd = List.replicate t.length false ++ [true] := by
  -- on the bytes behind; `last` says whether the byte before ended its read
  induction t generalizing last with
  | nil =>
    rw [nil_append]
    cases last with
    | true => exact iff_of_true (skipRead_true s) rfl
    | false =>
      refine iff_of_false (fun heq => ?_) (by simp)
      cases s with
      | nil => exact absurd ((hclosed rfl).2 rfl) (by decide)
      | cons x s =>
        -- at least one byte is taken along
        rw [skipRead, if_neg (by decide)] at heq
        have hlen := (skipRead_suffix x.2 s).length_le
        rw [heq, length_cons] at hlen
        omega
  | cons x t ih =>
    obtain ⟨b, last'⟩ := x
    rw [cons_append, skipRead]
    cases last with
    | true =>
      refine iff_of_false (fun heq => ?_) (by simp [replicate_succ])
      rw [if_pos rfl] at heq
      have hlen := congrArg length heq
      simp only [length_cons, length_append] at hlen
      omega
    | false =>
      rw [if_neg (by decide), ih]
      · simp [replicate_succ]
      · intro hs
        obtain ⟨hlast, -⟩ := hclosed hs
        refine ⟨fun y hy => ?_, fun ht => ?_⟩
        · apply hlast y
          rw [getLast?_cons, hy]
          rfl
        · subst ht
          exact hlast (b, last') rfl

/-- The bytes that a reader on top has taken, when it needed `k` bytes of `t`, end with `t`. -/
theorem skipRead_eq_iff {before after s : Incoming} {b : Byte} {last : Bool}
    (hclosed : Closed (before ++ (b, last) :: after ++ s)) :
    skipRead last (after ++ s) = s ↔
    EndsWith (before.length + 1) (before ++ (b, last) :: after) := by
  have hdrop : (before ++ (b, last) :: after).drop (before.length + 1 - 1) =
      (b, last) :: after := by
    rw [Nat.add_sub_cancel, drop_left]
  have hlen : (before ++ (b, last) :: after).length - (before.length + 1) = after.length := by
    rw [length_append, length_cons]
    omega
  rw [EndsWith, hdrop, hlen, map_cons, skipRead_append_eq_iff]
  · rintro rfl
    rw [append_nil] at hclosed
    refine ⟨fun x hx => ?_, fun hafter => ?_⟩
    · apply hclosed x
      rw [getLast?_append, getLast?_cons, hx]
      rfl
    · subst hafter
      exact hclosed (b, last) (by simp)

end Skip

end AmneziaWG.Lib
