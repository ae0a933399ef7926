import AmneziaWG.Conn.BindStd
import AmneziaWG.Lib.Chunks
import Mathlib.Data.List.TakeWhile

/-!
# Splitting what the Kernel has Joined

`splitCoalescedMessages` cuts the messages from `firstMsgAt` on into segments and moves the segments
to the front of the same messages.  The index of the next target never passes the index of the
message that is being read: a message is its own target at most for its last segment, and all
messages behind it are as they were received.

## Main results

- `splitCoalescedMessages_spec`: the segments are at the front, in order, when they fit; otherwise
  an error is returned.
-/

namespace AmneziaWG.Conn

open AmneziaWG.Lib List Option Nat

variable {A E : Type}

/-! ## §1 Segments -/

/-- The bytes that were received into a message. -/
def Message.payload (mem : ℕ → Byte) (msg : Message A) : Bytes := (msg.buffer.read mem).take msg.n

/-- The number of segments of `n` bytes; a size of zero means that nothing was joined. -/
def segmentCount (n gsoSize : ℕ) : ℕ := if gsoSize = 0 then 1 else (n + gsoSize - 1) / gsoSize

def Message.segments (mem : ℕ → Byte) (gsoSize : ℕ) (msg : Message A) : List Bytes :=
  if gsoSize = 0 then [msg.payload mem] else chunks gsoSize (msg.payload mem)

/-- A message as its receiver sees it: its length, its bytes and where it came from. -/
def Message.view (mem : ℕ → Byte) (msg : Message A) : ℕ × Bytes × Option A :=
  (msg.n, msg.payload mem, msg.addr)

/-- The view of a message that holds one segment. -/
def segmentView (addr : Option A) (segment : Bytes) : ℕ × Bytes × Option A :=
  (segment.length, segment, addr)

theorem length_payload {mem : ℕ → Byte} {msg : Message A} (h : msg.n ≤ msg.buffer.len) :
    (msg.payload mem).length = msg.n := by
  rw [Message.payload, length_take, Slice.length_read, min_eq_left h]

theorem segment_eq {mem : ℕ → Byte} {msg : Message A} (h : msg.n ≤ msg.buffer.len) {start stop : ℕ}
    (hstart : start ≤ stop) (hstop : stop ≤ msg.n) :
    msg.segment mem start stop = some (((msg.payload mem).take stop).drop start) := by
  have hlen : stop ≤ msg.buffer.len := le_trans hstop h
  rw [Message.segment, if_pos ⟨hstart, le_trans hlen msg.buffer.len_le⟩, Message.payload,
    take_take, min_eq_left hstop, Slice.drop_take_read _ _ hlen]

theorem chunksFrom_segment (mem : ℕ → Byte) {msg : Message A} (h : msg.n ≤ msg.buffer.len)
    {gsoSize start stop : ℕ} (hstop : stop = min (start + gsoSize) msg.n) (hstart : start < msg.n)
    (k : ℕ) : chunksFrom gsoSize (k + 1) ((msg.payload mem).drop start) =
      ((msg.payload mem).take stop).drop start ::
        chunksFrom gsoSize k ((msg.payload mem).drop (start + gsoSize)) := by
  have hlen : (msg.payload mem).length = msg.n := length_payload h
  obtain ⟨x, xs, hx⟩ : ∃ x xs, (msg.payload mem).drop start = x :: xs :=
    exists_cons_of_length_pos (by rw [length_drop, hlen]; omega)
  have hstep : chunksFrom gsoSize (k + 1) ((msg.payload mem).drop start) =
      ((msg.payload mem).drop start).take gsoSize ::
        chunksFrom gsoSize k (((msg.payload mem).drop start).drop gsoSize) := by
    rw [hx]
    rfl
  rw [hstep, drop_drop, drop_take, take_eq_take_iff.mpr]
  rw [length_drop, hlen]
  omega

/-! ## §2 One copy -/

/-- The messages and the memory when `out` has been moved to the front and the messages from `i` on
have not been read. -/
structure Moved (mem₀ : ℕ → Byte) (msgs₀ : List (Message A)) (i : ℕ)
    (out : List (ℕ × Bytes × Option A)) (s : Splitting A) : Prop where
  buffers : s.msgs.map (·.buffer) = msgs₀.map (·.buffer)
  n_eq : s.n = out.length
  front : (s.msgs.take s.n).map (·.view s.mem) = out
  rest : s.msgs.drop i = msgs₀.drop i
  unread : ∀ msg ∈ msgs₀.drop i, msg.buffer.read s.mem = msg.buffer.read mem₀

section Copy

variable {mem₀ : ℕ → Byte} {msgs₀ : List (Message A)} {i : ℕ} {out : List (ℕ × Bytes × Option A)}
  {s : Splitting A}

theorem Moved.getElem? (h : Moved mem₀ msgs₀ i out s) {j : ℕ} (hj : i ≤ j) :
    s.msgs[j]? = msgs₀[j]? := by
  have hdrop : (s.msgs.drop i)[j - i]? = (msgs₀.drop i)[j - i]? := by rw [h.rest]
  rw [List.getElem?_drop, List.getElem?_drop, Nat.add_sub_cancel' hj] at hdrop
  exact hdrop

theorem Moved.length_eq (h : Moved mem₀ msgs₀ i out s) : s.msgs.length = msgs₀.length := by
  have := congrArg length h.buffers
  simpa using this

theorem Moved.buffer_eq (h : Moved mem₀ msgs₀ i out s) (j : ℕ) :
    (s.msgs[j]?).map (·.buffer) = (msgs₀[j]?).map (·.buffer) := by
  rw [← getElem?_map, ← getElem?_map, h.buffers]

theorem Moved.mono (h : Moved mem₀ msgs₀ i out s) {j : ℕ} (hij : i ≤ j) :
    Moved mem₀ msgs₀ j out s := by
  obtain ⟨k, rfl⟩ := Nat.exists_eq_add_of_le hij
  refine ⟨h.buffers, h.n_eq, h.front, ?_, ?_⟩
  · rw [← drop_drop, h.rest, drop_drop]
  · intro msg hmsg
    rw [← drop_drop] at hmsg
    exact h.unread msg (mem_of_mem_drop hmsg)

theorem disjoint_of_ne {slices : List Slice} (h : slices.Pairwise Slice.Disjoint) {j k : ℕ}
    (hne : j ≠ k) {a b : Slice} (ha : slices[j]? = some a) (hb : slices[k]? = some b) :
    a.Disjoint b := by
  obtain ⟨hj, rfl⟩ := List.getElem?_eq_some_iff.mp ha
  obtain ⟨hk, rfl⟩ := List.getElem?_eq_some_iff.mp hb
  have hpairs := pairwise_iff_getElem.mp h
  rcases lt_or_gt_of_ne hne with hlt | hlt
  · exact hpairs j k hj hk hlt
  · exact (hpairs k j hk hj hlt).symm

/-- A copy to the front of message `k` is not seen in any other message. -/
theorem read_store_other {mem : ℕ → Byte}
    (hdisjoint : (msgs₀.map (·.buffer)).Pairwise Slice.Disjoint)
    {j k : ℕ} (hne : j ≠ k) {a b : Slice} (ha : (msgs₀[j]?).map (·.buffer) = some a)
    (hb : (msgs₀[k]?).map (·.buffer) = some b) {cells : Bytes} (hcells : cells.length ≤ b.len) :
    a.read (store mem b.ptr cells) = a.read mem := by
  rw [← getElem?_map] at ha hb
  have hlen := b.len_le
  exact Slice.read_store_of_disjoint (disjoint_of_ne hdisjoint hne ha hb).symm mem (le_refl _)
    (by omega)

/-- The state after a segment of `cells` has been copied to a target. -/
theorem Moved.put (h : Moved mem₀ msgs₀ i out s)
    (hdisjoint : (msgs₀.map (·.buffer)).Pairwise Slice.Disjoint) {target : Message A}
    (htarget : s.msgs[s.n]? = some target) {cells : Bytes}
    (hcells : cells.length ≤ target.buffer.len)
    (addr : Option A) : Moved mem₀ msgs₀ (max i (s.n + 1)) (out ++ [segmentView addr cells])
      { mem := store s.mem target.buffer.ptr cells
        msgs := s.msgs.set s.n { target with n := cells.length, addr }
        n := s.n + 1 } := by
  have hbuffer : (msgs₀[s.n]?).map (·.buffer) = some target.buffer := by
    rw [← h.buffer_eq, htarget]
    rfl
  have hlt : s.n < s.msgs.length := (List.getElem?_eq_some_iff.mp htarget).1
  constructor
  case buffers =>
    rw [map_set, h.buffers]
    refine ext_getElem? fun j => ?_
    by_cases hj : s.n = j
    · subst hj
      rw [getElem?_set_self (by simpa [← h.length_eq] using hlt), getElem?_map, hbuffer]
    · rw [getElem?_set_ne hj]
  case n_eq =>
    show s.n + 1 = _
    rw [h.n_eq, length_append]
    rfl
  case front =>
    -- the messages before the target keep their bytes
    have hbefore : (s.msgs.take s.n).map (·.view (store s.mem target.buffer.ptr cells)) = out := by
      rw [← h.front]
      refine map_congr_left fun msg hmsg => ?_
      obtain ⟨j, hj⟩ := mem_iff_getElem?.mp hmsg
      rw [getElem?_take] at hj
      split_ifs at hj with hjlt
      have ha : (msgs₀[j]?).map (·.buffer) = some msg.buffer := by
        rw [← h.buffer_eq, hj]
        rfl
      simp only [Message.view, Message.payload]
      rw [read_store_other hdisjoint (Nat.ne_of_lt hjlt) ha hbuffer hcells]
    rw [take_add_one, take_set_of_le (le_refl _), getElem?_set_self hlt, map_append, hbefore]
    simp only [toList, map_cons, map_nil, Message.view, Message.payload]
    rw [Slice.take_read_store _ _ hcells]
    rfl
  case rest =>
    rw [drop_set_of_lt (by omega)]
    exact (h.mono (le_max_left i (s.n + 1))).rest
  case unread =>
    -- the messages that are still to be read are behind the target
    intro msg hmsg
    obtain ⟨j, hj⟩ := mem_iff_getElem?.mp hmsg
    rw [getElem?_drop] at hj
    have ha : (msgs₀[max i (s.n + 1) + j]?).map (·.buffer) = some msg.buffer := by
      rw [hj]
      rfl
    rw [read_store_other hdisjoint (by omega) ha hbuffer hcells]
    exact (h.mono (le_max_left i (s.n + 1))).unread msg hmsg

/-- One copy moves the next segment of message `i`, unless the target has passed the message. -/
theorem Moved.copy (h : Moved mem₀ msgs₀ i out s) (hle : s.n ≤ i) {size : ℕ}
    (hsize : ∀ msg ∈ msgs₀, msg.buffer.len = size)
    (hdisjoint : (msgs₀.map (·.buffer)).Pairwise Slice.Disjoint) {msg : Message A}
    (hmsg : msgs₀[i]? = some msg) (hn : msg.n ≤ msg.buffer.len) {start stop : ℕ}
    (hstart : start ≤ stop) (hstop : stop ≤ msg.n) :
    ∃ s', s.copy i start stop = some s' ∧ s'.n = s.n + 1 ∧ Moved mem₀ msgs₀ (max i (s.n + 1))
        (out ++ [segmentView msg.addr (((msg.payload mem₀).take stop).drop start)]) s' := by
  have hi : i < msgs₀.length := (List.getElem?_eq_some_iff.mp hmsg).1
  have hlt : s.n < s.msgs.length := by
    rw [h.length_eq]
    omega
  obtain ⟨target, htarget⟩ : ∃ target, s.msgs[s.n]? = some target := ⟨_, getElem?_eq_getElem hlt⟩
  -- the message is still as it was received
  have hpayload : msg.payload s.mem = msg.payload mem₀ := by
    have hmem : msg ∈ msgs₀.drop i := by
      rw [List.drop_eq_getElem_cons hi, (List.getElem?_eq_some_iff.mp hmsg).2]
      exact mem_cons_self ..
    rw [Message.payload, h.unread msg hmem]
    rfl
  have hsegment : msg.segment s.mem start stop =
      some (((msg.payload s.mem).take stop).drop start) :=
    segment_eq hn hstart hstop
  rw [hpayload] at hsegment
  set cells := ((msg.payload mem₀).take stop).drop start
  -- all buffers of the pool have one size, so the segment fits the target
  have hcells : cells.length ≤ target.buffer.len := by
    have hbuffer : (msgs₀[s.n]?).map (·.buffer) = some target.buffer := by
      rw [← h.buffer_eq, htarget]
      rfl
    obtain ⟨msg', hmsg', heq⟩ := map_eq_some_iff.mp hbuffer
    have hsize₁ := hsize msg (mem_of_getElem? hmsg)
    have hsize₂ := hsize msg' (mem_of_getElem? hmsg')
    rw [heq] at hsize₂
    have hlen : cells.length ≤ stop := by
      rw [length_drop, length_take]
      omega
    omega
  refine ⟨_, ?_, ?_, h.put hdisjoint htarget hcells msg.addr⟩
  · rw [Splitting.copy, h.getElem? (le_refl i), hmsg, htarget]
    simp only [bind_eq_bind, bind_some, hsegment, min_eq_right hcells, take_length]
    rfl
  · rfl

end Copy

/-! ## §3 One message -/

/-- The messages of a call: buffers of one size that do not overlap. -/
structure Pooled (size : ℕ) (msgs : List (Message A)) : Prop where
  size_eq : ∀ msg ∈ msgs, msg.buffer.len = size
  disjoint : (msgs.map (·.buffer)).Pairwise Slice.Disjoint

section Message

variable {mem₀ : ℕ → Byte} {msgs₀ : List (Message A)} {size i : ℕ} {msg : Message A}
  (hpooled : Pooled size msgs₀) (hmsg : msgs₀[i]? = some msg) (hn : msg.n ≤ msg.buffer.len)
variable {out : List (ℕ × Bytes × Option A)} {s : Splitting A}
include hpooled hmsg hn

theorem splitMessage_copy
    (h : Moved mem₀ msgs₀ i out s) (hle : s.n ≤ i) {start stop : ℕ} (hstart : start ≤ stop)
    (hstop : stop ≤ msg.n) (gsoSize k : ℕ) : ∃ s' stop', Moved mem₀ msgs₀ (max i (s.n + 1))
        (out ++ [segmentView msg.addr (((msg.payload mem₀).take stop).drop start)]) s' ∧
      s'.n = s.n + 1 ∧ (s.n < i → stop' = min (stop + gsoSize) msg.n) ∧
      splitMessage (E := E) i gsoSize (k + 1) start stop s =
        splitMessage i gsoSize k stop stop' s' := by
  obtain ⟨s', hcopy, hn', hmoved⟩ :=
    h.copy hle hpooled.size_eq hpooled.disjoint hmsg hn hstart hstop
  have hi : i < s'.msgs.length := by
    rw [hmoved.length_eq]
    exact (List.getElem?_eq_some_iff.mp hmsg).1
  refine ⟨s', min (stop + gsoSize) s'.msgs[i].n, hmoved, hn', ?_, ?_⟩
  · intro hlt
    -- the target is before the message, which has not changed
    have hget : s'.msgs[i]? = msgs₀[i]? := hmoved.getElem? (by omega)
    rw [hmsg, getElem?_eq_getElem hi, some.injEq] at hget
    rw [hget]
  · rw [splitMessage, if_neg (not_lt.mpr hle), hcopy, bind_eq_bind, bind_some,
      getElem?_eq_getElem hi]
    rfl

/-- The segments of one message, when they fit and when they do not. -/
theorem splitMessage_spec {gsoSize : ℕ} (hg : 0 < gsoSize) {k start stop : ℕ}
    (h : Moved mem₀ msgs₀ i out s)
    (hle : s.n ≤ i) (hstop : stop = min (start + gsoSize) msg.n)
    (hlow : start + k * gsoSize < msg.n)
    (hhigh : msg.n ≤ start + (k + 1) * gsoSize) : (out.length + (k + 1) ≤ i + 1 →
      ∃ s', splitMessage (E := E) i gsoSize (k + 1) start stop s = some (s', none) ∧
        Moved mem₀ msgs₀ (i + 1)
          (out ++ (chunksFrom gsoSize (k + 1) ((msg.payload mem₀).drop start)).map
            (segmentView msg.addr)) s') ∧
      (i + 1 < out.length + (k + 1) →
        ∃ s', splitMessage (E := E) i gsoSize (k + 1) start stop s =
          some (s', some .overflow)) := by
  induction k generalizing start stop out s with
  | zero =>
    have hchunk := chunksFrom_segment mem₀ hn hstop (show start < msg.n by omega) 0
    obtain ⟨s', stop', hmoved, -, -, hrun⟩ :=
      splitMessage_copy (E := E) hpooled hmsg hn h hle (show start ≤ stop by omega)
        (show stop ≤ msg.n by omega) gsoSize 0
    have hn' := h.n_eq
    refine ⟨fun hfits => ⟨s', hrun.trans rfl, ?_⟩, fun hover => by omega⟩
    rw [hchunk]
    exact hmoved.mono (by omega)
  | succ k ih =>
    have hmul : (k + 1) * gsoSize = k * gsoSize + gsoSize := succ_mul k gsoSize
    have hmul' : (k + 1 + 1) * gsoSize = (k + 1) * gsoSize + gsoSize := succ_mul (k + 1) gsoSize
    have hchunk := chunksFrom_segment mem₀ hn hstop (show start < msg.n by omega) (k + 1)
    obtain ⟨s', stop', hmoved, hsn, hstop', hrun⟩ :=
      splitMessage_copy (E := E) hpooled hmsg hn h hle (show start ≤ stop by omega)
        (show stop ≤ msg.n by omega) gsoSize (k + 1)
    have hn' := h.n_eq
    rw [hrun, hchunk]
    rcases lt_or_eq_of_le hle with hlt | heq
    · -- the message is still there for the segments that follow
      rw [max_eq_left (by omega)] at hmoved
      have hlen : stop = start + gsoSize := by omega
      have hspec := ih hmoved (by omega) (hstop' hlt) (by omega) (by omega)
      rw [hlen] at hspec ⊢
      rw [length_append, length_singleton] at hspec
      refine ⟨fun hfits => ?_, fun hover => hspec.2 (by omega)⟩
      obtain ⟨s'', hrun', hmoved'⟩ := hspec.1 (by omega)
      refine ⟨s'', hrun', ?_⟩
      rw [append_assoc] at hmoved'
      exact hmoved'
    · -- the message was its own target, and it has another segment
      refine ⟨fun hfits => by omega, fun _ => ⟨s', ?_⟩⟩
      rw [splitMessage, if_pos (by omega)]

/-- All segments of a message, whether it was joined or not. -/
theorem splitMessage_segments {gsoSize : ℕ} (hg : gsoSize ≤ msg.n) (hpos : 0 < msg.n)
    (h : Moved mem₀ msgs₀ i out s)
    (hle : s.n ≤ i) :
    let stop := if gsoSize > 0 then gsoSize else msg.n
    let count := if gsoSize > 0 then (msg.n + gsoSize - 1) / gsoSize else 1
    (out.length + count ≤ i + 1 →
      ∃ s', splitMessage (E := E) i gsoSize count 0 stop s = some (s', none) ∧
        Moved mem₀ msgs₀ (i + 1)
          (out ++ (msg.segments mem₀ gsoSize).map (segmentView msg.addr)) s') ∧
      (i + 1 < out.length + count →
        ∃ s', splitMessage (E := E) i gsoSize count 0 stop s = some (s', some .overflow)) := by
  intro stop count
  rcases Nat.eq_zero_or_pos gsoSize with rfl | hgpos
  · -- the message is one segment
    have hn' := h.n_eq
    obtain ⟨s', stop', hmoved, -, -, hrun⟩ :=
      splitMessage_copy (E := E) hpooled hmsg hn h hle (zero_le msg.n) (le_refl _) 0 0
    refine ⟨fun _ => ⟨s', hrun.trans rfl, ?_⟩, fun hover => ?_⟩
    · have hwhole : (msg.payload mem₀).take msg.n = msg.payload mem₀ :=
        take_of_length_le (le_of_eq (length_payload hn))
      rw [hwhole, drop_zero] at hmoved
      exact hmoved.mono (by omega)
    · have : count = 1 := rfl
      omega
  · -- the loop runs once for each segment, the quotient rounded up
    obtain ⟨k, hlow, hhigh, hceil⟩ := exists_chunk_count hpos hgpos
    have hcount : count = k + 1 := by
      show (if gsoSize > 0 then (msg.n + gsoSize - 1) / gsoSize else 1) = _
      rw [if_pos hgpos, hceil]
    have hstop : stop = min (0 + gsoSize) msg.n := by
      show (if gsoSize > 0 then gsoSize else msg.n) = _
      rw [if_pos hgpos]
      omega
    have hsegments : chunksFrom gsoSize (k + 1) ((msg.payload mem₀).drop 0) =
        msg.segments mem₀ gsoSize := by
      rw [Message.segments, if_neg (ne_of_gt hgpos), drop_zero]
      exact chunksFrom_eq_chunks hgpos (length_payload hn ▸ hhigh)
    rw [hcount, ← hsegments]
    exact splitMessage_spec hpooled hmsg hn hgpos h hle hstop (by omega) (by omega)

end Message

/-! ## §4 All messages -/

/-- The messages that the kernel has filled: those before the first one without data. -/
def receivedMessages (msgs : List (Message A)) : List (Message A) :=
  msgs.takeWhile fun msg => msg.n ≠ 0

section Split

variable (getGSO : Control → Except E ℕ)

/-- The size that `getGSO` reads. -/
def gsoSizeOf (msg : Message A) : ℕ :=
  match getGSO msg.oob with
  | .ok gsoSize => gsoSize
  | .error _ => 0

def countOf (msg : Message A) : ℕ := segmentCount msg.n (gsoSizeOf getGSO msg)

/-- What is received for a message. -/
def viewsOf (mem : ℕ → Byte) (msg : Message A) : List (ℕ × Bytes × Option A) :=
  (msg.segments mem (gsoSizeOf getGSO msg)).map (segmentView msg.addr)

/-- A message as the kernel fills it. -/
def WellFormed (msg : Message A) : Prop :=
  msg.n ≤ msg.buffer.len ∧
    ∃ gsoSize, getGSO msg.oob = .ok gsoSize ∧ (gsoSize = 0 ∨ 1 ≤ gsoSize ∧ gsoSize ≤ msg.n)

/-- The segments never pass the message that they are from, for messages from `i` on and with `n`
segments before them. -/
def FitsFrom : ℕ → ℕ → List (Message A) → Prop
  | _, _, [] => True
  | i, n, msg :: msgs => n + countOf getGSO msg ≤ i + 1 ∧
      FitsFrom (i + 1) (n + countOf getGSO msg) msgs

variable {getGSO} {mem₀ : ℕ → Byte} {msgs₀ : List (Message A)}

theorem fitsFrom_iff {i n : ℕ} {msgs : List (Message A)} : FitsFrom getGSO i n msgs ↔
      ∀ j < msgs.length, n + ((msgs.take (j + 1)).map (countOf getGSO)).sum ≤ i + j + 1 := by
  induction msgs generalizing i n with
  | nil => simp [FitsFrom]
  | cons msg msgs ih =>
    rw [FitsFrom, ih]
    constructor
    · rintro ⟨hfirst, hrest⟩ j hj
      cases j with
      | zero => simpa using hfirst
      | succ j =>
        have := hrest j (lt_of_succ_lt_succ hj)
        simp only [take_succ_cons, map_cons, sum_cons]
        omega
    · intro h
      refine ⟨by simpa using h 0 (succ_pos _), fun j hj => ?_⟩
      have := h (j + 1) (succ_lt_succ hj)
      simp only [take_succ_cons, map_cons, sum_cons] at this
      omega

theorem length_viewsOf {msg : Message A} (hwell : WellFormed getGSO msg) (hpos : 0 < msg.n)
    (mem : ℕ → Byte) : (viewsOf getGSO mem msg).length = countOf getGSO msg := by
  obtain ⟨hn, gsoSize, hgso, -⟩ := hwell
  have hsize : gsoSizeOf getGSO msg = gsoSize := by rw [gsoSizeOf, hgso]
  have hlen : (msg.payload mem).length = msg.n := length_payload hn
  rw [viewsOf, length_map, countOf, hsize, Message.segments, segmentCount]
  split_ifs with hzero
  · rfl
  · rw [length_chunks (pos_of_ne_zero hzero) (hlen ▸ hpos), hlen]

theorem Moved.clear {i : ℕ} {out : List (ℕ × Bytes × Option A)} {s : Splitting A}
    (h : Moved mem₀ msgs₀ (i + 1) out s) (hle : s.n ≤ i + 1) : Moved mem₀ msgs₀ (i + 1) out
      { s with msgs := if i + 1 ≠ s.n then s.msgs.modify i ({ · with n := 0 }) else s.msgs } := by
  split_ifs with hne
  · have hlt : s.n ≤ i := by omega
    refine ⟨?_, h.n_eq, ?_, ?_, h.unread⟩
    · rw [← h.buffers]
      refine ext_getElem? fun j => ?_
      rw [getElem?_map, getElem?_map, getElem?_modify]
      cases s.msgs[j]? with
      | none => rfl
      | some msg => by_cases hj : i = j <;> simp [hj]
    · -- the message is behind the front
      have htake : (s.msgs.modify i ({ · with n := 0 })).take s.n = s.msgs.take s.n := by
        rw [take_modify, modify_eq_self]
        rw [length_take]
        omega
      show ((s.msgs.modify i ({ · with n := 0 })).take s.n).map _ = out
      rw [htake]
      exact h.front
    · rw [drop_modify_of_lt _ _ _ _ (lt_succ_self i)]
      exact h.rest
  · exact h

theorem splitFrom_spec {size : ℕ} (hpooled : Pooled size msgs₀) {i : ℕ}
    {out : List (ℕ × Bytes × Option A)} {s : Splitting A} {rest : List (Message A)}
    (hrest : msgs₀.drop i = rest) (hwell : ∀ msg ∈ receivedMessages rest, WellFormed getGSO msg)
    (h : Moved mem₀ msgs₀ i out s) (hle : s.n ≤ i) :
    (FitsFrom getGSO i out.length (receivedMessages rest) →
      ∃ s' i', splitFrom getGSO rest.length i s = some (s', none) ∧
        Moved mem₀ msgs₀ i' (out ++ (receivedMessages rest).flatMap (viewsOf getGSO mem₀)) s') ∧
      (¬FitsFrom getGSO i out.length (receivedMessages rest) →
        ∃ s', splitFrom getGSO rest.length i s = some (s', some .overflow)) := by
  -- on the messages to be read; `Moved` says what has been copied so far
  induction rest generalizing i out s with
  | nil => exact ⟨fun _ => ⟨s, i, rfl, by simpa [receivedMessages] using h⟩,
      fun hfits => absurd trivial hfits⟩
  | cons msg rest ih =>
    have hmsg : msgs₀[i]? = some msg := by
      rw [← head?_drop, hrest]
      rfl
    have hnext : msgs₀.drop (i + 1) = rest := by
      rw [← drop_drop, hrest]
      rfl
    have hcur : s.msgs[i]? = some msg := (h.getElem? (le_refl i)).trans hmsg
    by_cases hzero : msg.n = 0
    · -- the first message without data ends the loop
      have hnil : receivedMessages (msg :: rest) = [] := by simp [receivedMessages, hzero]
      rw [hnil]
      refine ⟨fun _ => ⟨s, i, ?_, by simpa using h⟩, fun hfits => absurd trivial hfits⟩
      rw [length_cons, splitFrom, hcur, bind_eq_bind, bind_some, if_pos hzero]
      rfl
    · have hpos := pos_of_ne_zero hzero
      have hcons : receivedMessages (msg :: rest) = msg :: receivedMessages rest := by
        simp [receivedMessages, hzero]
      rw [hcons] at hwell ⊢
      have hmsgWell := hwell msg (mem_cons_self ..)
      obtain ⟨hn, gsoSize, hgso, hg⟩ := id hmsgWell
      have hsize : gsoSizeOf getGSO msg = gsoSize := by rw [gsoSizeOf, hgso]
      obtain ⟨hfit, hover⟩ :=
        splitMessage_segments (E := E) hpooled hmsg hn (show gsoSize ≤ msg.n by omega) hpos h hle
      have hcount : (if gsoSize > 0 then (msg.n + gsoSize - 1) / gsoSize else 1) =
          countOf getGSO msg := by
        rw [countOf, hsize, segmentCount]
        split_ifs <;> first | rfl | omega
      have hviews : (msg.segments mem₀ gsoSize).map (segmentView msg.addr) =
          viewsOf getGSO mem₀ msg := by rw [viewsOf, hsize]
      rw [hcount] at hfit hover
      rw [hviews] at hfit
      rw [FitsFrom, length_cons, splitFrom, hcur, bind_eq_bind, bind_some, if_neg hzero, hgso]
      simp only [hcount]
      -- the overflow is found before the segments of the message are all copied
      by_cases hroom : out.length + countOf getGSO msg ≤ i + 1
      · obtain ⟨s₁, hrun, hmoved⟩ := hfit hroom
        have hlen := length_viewsOf hmsgWell hpos mem₀
        have hn₁ := hmoved.n_eq
        rw [length_append, hlen] at hn₁
        have hspec := ih hnext (fun m hm => hwell m (mem_cons_of_mem _ hm))
          (hmoved.clear (by omega)) (show s₁.n ≤ i + 1 by omega)
        rw [length_append, hlen] at hspec
        rw [hrun]
        refine ⟨fun hfits => ?_, fun hfits => hspec.2 fun hrest' => hfits ⟨hroom, hrest'⟩⟩
        obtain ⟨s', i', hrun', hmoved'⟩ := hspec.1 hfits.2
        refine ⟨s', i', hrun', ?_⟩
        rw [flatMap_cons, ← append_assoc]
        exact hmoved'
      · obtain ⟨s', hrun⟩ := hover (by omega)
        rw [hrun]
        exact ⟨fun hfits => absurd hfits.1 hroom, fun _ => ⟨s', rfl⟩⟩

variable (getGSO)

/-- The sum of the counts up to every received message is at most the number of messages up to
it. -/
def Fits (firstMsgAt : ℕ) (received : List (Message A)) : Prop :=
  ∀ j < received.length, ((received.take (j + 1)).map (countOf getGSO)).sum ≤ firstMsgAt + j + 1

/-- `splitCoalescedMessages` on messages with buffers of one size, which the kernel has filled from
`firstMsgAt` on.  When the segments fit, their number is returned without an error and they are at
the front in order, each with its length, its bytes as they were received and its source address;
otherwise an error is returned. -/
theorem splitCoalescedMessages_spec {size : ℕ} {msgs : List (Message A)} (firstMsgAt : ℕ)
    (mem : ℕ → Byte) (hpooled : Pooled size msgs)
    (hwell : ∀ msg ∈ receivedMessages (msgs.drop firstMsgAt), WellFormed getGSO msg) :
    (Fits getGSO firstMsgAt (receivedMessages (msgs.drop firstMsgAt)) →
      ∃ s, splitCoalescedMessages getGSO msgs firstMsgAt mem = some (s, none) ∧
        s.n = ((receivedMessages (msgs.drop firstMsgAt)).map (countOf getGSO)).sum ∧
        (s.msgs.take s.n).map (·.view s.mem) =
          (receivedMessages (msgs.drop firstMsgAt)).flatMap (viewsOf getGSO mem)) ∧
      (¬Fits getGSO firstMsgAt (receivedMessages (msgs.drop firstMsgAt)) →
        ∃ s err, splitCoalescedMessages getGSO msgs firstMsgAt mem = some (s, some err)) := by
  have hstart : Moved mem msgs firstMsgAt [] { mem, msgs, n := 0 } :=
    ⟨rfl, rfl, rfl, rfl, fun _ _ => rfl⟩
  have hfits : Fits getGSO firstMsgAt (receivedMessages (msgs.drop firstMsgAt)) ↔
      FitsFrom getGSO firstMsgAt 0 (receivedMessages (msgs.drop firstMsgAt)) := by
    rw [fitsFrom_iff, Fits]
    simp only [zero_add]
  obtain ⟨hfit, hover⟩ := splitFrom_spec hpooled rfl hwell hstart (zero_le firstMsgAt)
  rw [length_drop, length_nil, ← hfits] at hfit hover
  constructor
  · intro h
    obtain ⟨s, i, hrun, hmoved⟩ := hfit h
    refine ⟨s, hrun, ?_, hmoved.front⟩
    rw [hmoved.n_eq, nil_append, length_flatMap]
    congr 1
    refine map_congr_left fun msg hmsg => ?_
    refine length_viewsOf (hwell msg hmsg) ?_ mem
    have hne := mem_takeWhile_imp hmsg
    exact pos_of_ne_zero (of_decide_eq_true hne)
  · intro h
    obtain ⟨s, hrun⟩ := hover h
    exact ⟨s, .overflow, hrun⟩

end Split

/-- Four messages with buffers of four bytes: one byte and three joined bytes were received into the
last two. -/
def receivedTwo : List (Message Unit) :=
  let control (messages : List ControlMessage) (h : controlLen messages ≤ 64) : Control :=
    { cap := 64, messages, fits := h }
  [{ buffer := ⟨0, 4, 4, by decide⟩, n := 0, oob := control [] (by decide), addr := none },
    { buffer := ⟨4, 4, 4, by decide⟩, n := 0, oob := control [] (by decide), addr := none },
    { buffer := ⟨8, 4, 4, by decide⟩, n := 1, oob := control [] (by decide), addr := some () },
    { buffer := ⟨12, 4, 4, by decide⟩, n := 3, oob := control [.udpGro 1] (by decide)
      addr := some () }]

theorem splitCoalescedMessages_four :
    ∃ s, splitCoalescedMessages getGSOSize receivedTwo 2 (fun a => BitVec.ofNat 8 a) =
        some (s, none) ∧ s.n = 4 ∧ (s.msgs.take s.n).map (·.view s.mem) =
        [(1, [8], some ()), (1, [12], some ()), (1, [13], some ()), (1, [14], some ())] := by
  have hpooled : Pooled 4 receivedTwo :=
    ⟨by simp [receivedTwo], by simp [receivedTwo, Slice.Disjoint]⟩
  have hwell : ∀ msg ∈ receivedMessages (receivedTwo.drop 2), WellFormed getGSOSize msg := by
    simp [receivedMessages, receivedTwo, WellFormed, getGSOSize]
  have hfits : Fits getGSOSize 2 (receivedMessages (receivedTwo.drop 2)) := by
    unfold Fits
    decide
  exact (splitCoalescedMessages_spec getGSOSize 2 (fun a => BitVec.ofNat 8 a) hpooled hwell).1 hfits

end AmneziaWG.Conn
