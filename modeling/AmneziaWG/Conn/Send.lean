import AmneziaWG.Conn.BindStd

/-!
# Sending a Batch

Embedding of `StdNetBind.Send` (`conn/bind_std.go`).  The buffers of a batch are put into the
messages of a pooled array, joined or one by one; a batch with more buffers than the array has
messages can be out of range (`none`).  The system calls are a parameter.

## Main results

- `StdNetBind.send_isSome`: a batch that is not larger than the pooled array is never out of range.
- `fillMessages_eq_none_iff`: without offload a larger batch always is.
-/

namespace AmneziaWG.Conn

open AmneziaWG.Lib List Option Nat

variable {A W : Type}

def idealBatchSize : ℕ := 128

/-- The sockets and flags of a `StdNetBind`. -/
structure StdNetBind where
  ipv4 : Bool
  ipv6 : Bool
  ipv4TxOffload : Bool
  ipv6TxOffload : Bool
  blackhole4 : Bool
  blackhole6 : Bool

/-- The errors of `Send`: no socket, an error of the system calls, and `ErrUDPGSODisabled` with the
result of the second try. -/
inductive SendError (W : Type) where
  | afNoSupport
  | write (err : W)
  | gsoDisabled (retryErr : Option W)

/-- Without offload: one message for each buffer. -/
def fillMessages (ua : A) (ep : StdNetEndpoint) : List Slice → List (Message A) →
    Option (List (Message A))
  | [], msgs => some msgs
  | _ :: _, [] => none
  | buf :: bufs, msg :: msgs => do
    let msgs ← fillMessages ua ep bufs msgs
    return { msg with addr := some ua, buffer := buf, oob := setSrcControl msg.oob ep } :: msgs

/-- `Send`.  `write` stands for the system calls and `disables` for `errShouldDisableUDPGSO`; `msgs`
is the array from the pool. -/
def StdNetBind.send (s : StdNetBind) (write : List (Message A) → Option W) (disables : W → Bool)
    (ua : A) (ep : StdNetEndpoint) (bufs : List Slice) (msgs : List (Message A)) (mem : ℕ → Byte) :
    Option (StdNetBind × Option (SendError W)) :=
  let blackhole := if ep.is6 then s.blackhole6 else s.blackhole4
  let conn := if ep.is6 then s.ipv6 else s.ipv4
  let offload := if ep.is6 then s.ipv6TxOffload else s.ipv4TxOffload
  if blackhole then some (s, none)
  else if !conn then some (s, some .afNoSupport)
  else if offload then do
    let (n, msgs, _) ← coalesceMessages ua ep setGSOSize bufs msgs mem
    match write (msgs.take n) with
    | none => return (s, none)
    | some err =>
      if disables err then
        let s := if ep.is6 then { s with ipv6TxOffload := false }
            else { s with ipv4TxOffload := false }
        let msgs ← fillMessages ua ep bufs msgs
        return (s, some (.gsoDisabled (write (msgs.take bufs.length))))
      else return (s, some (.write err))
  else do
    let msgs ← fillMessages ua ep bufs msgs
    return (s, (write (msgs.take bufs.length)).map .write)

/-! ## §1 Without offload -/

theorem fillMessages_eq_none_iff (ua : A) (ep : StdNetEndpoint) (bufs : List Slice)
    (msgs : List (Message A)) :
    fillMessages ua ep bufs msgs = none ↔ msgs.length < bufs.length := by
  induction bufs generalizing msgs with
  | nil => simp [fillMessages]
  | cons buf bufs ih =>
    cases msgs with
    | nil => simp [fillMessages]
    | cons msg msgs =>
      have hrest := ih msgs
      rw [length_cons, length_cons, succ_lt_succ_iff, ← hrest, fillMessages]
      cases fillMessages ua ep bufs msgs <;> simp

/-! ## §2 With offload -/

section

variable (addr : A) (ep : StdNetEndpoint) (setGSO : Control → BitVec 16 → Control)

/-- Every buffer needs at most one message more. -/
theorem coalesceFrom_isSome (i : ℕ)
    (bufs : List Slice) {s : Coalescing A} (hroom : s.count + bufs.length ≤ s.msgs.length)
    (hstarted : 0 < i → 0 < s.count) :
    ∃ s', coalesceFrom addr ep setGSO i bufs s = some s' ∧ s'.msgs.length = s.msgs.length := by
  induction bufs generalizing i s with
  | nil => exact ⟨s, rfl, rfl⟩
  | cons buf bufs ih =>
    rw [length_cons] at hroom
    -- a new message: there is one left in the array
    have hstart : ∃ s₁, s.start addr ep setGSO buf = some s₁ ∧ s₁.count = s.count + 1 ∧
        s₁.msgs.length = s.msgs.length := by
      unfold Coalescing.start
      have hlen : (if s.dgramCnt > 1 then s.msgs.modify (s.count - 1) (·.withGSO setGSO s.gsoSize)
        else
          s.msgs).length = s.msgs.length := by
        split
        · exact length_modify _ _ _
        · rfl
      generalize (if s.dgramCnt > 1 then s.msgs.modify (s.count - 1) (·.withGSO setGSO s.gsoSize)
        else s.msgs) = msgs at hlen ⊢
      have hget : msgs[s.count]? = some (msgs[s.count]) := getElem?_eq_getElem (by omega)
      simp only [hget, bind_eq_bind, bind_some]
      refine ⟨_, rfl, rfl, ?_⟩
      simpa using hlen
    -- the buffer is joined to the last message, or starts a new one
    have hstep : ∃ s₁, s.step addr ep setGSO i buf bufs.isEmpty = some s₁ ∧ 0 < s₁.count ∧
        s₁.count ≤ s.count + 1 ∧ s₁.msgs.length = s.msgs.length := by
      obtain ⟨s₁, hs₁, hcount, hmsgs⟩ := hstart
      unfold Coalescing.step
      split
      · next hi =>
        have hpos := hstarted hi
        have hget : s.msgs[s.count - 1]? = some (s.msgs[s.count - 1]) :=
          getElem?_eq_getElem (by omega)
        rw [hget]
        dsimp only
        split
        · next hjoins =>
          refine ⟨_, rfl, hpos, le_succ _, ?_⟩
          exact length_set
        · exact ⟨s₁, hs₁, by omega, by omega, hmsgs⟩
      · exact ⟨s₁, hs₁, by omega, by omega, hmsgs⟩
    obtain ⟨s₁, hs₁, hpos, hcount, hmsgs⟩ := hstep
    obtain ⟨s', hs', hlen⟩ := ih (i + 1) (s := s₁) (by omega) (fun _ => hpos)
    refine ⟨s', ?_, hlen.trans hmsgs⟩
    rw [coalesceFrom, hs₁]
    exact hs'

theorem coalesceMessages_isSome
    {bufs : List Slice} {msgs : List (Message A)} (mem : ℕ → Byte) (h : bufs.length ≤ msgs.length) :
    ∃ n msgs' mem', coalesceMessages addr ep setGSO bufs msgs mem = some (n, msgs', mem') ∧
      msgs'.length = msgs.length := by
  obtain ⟨s, hs, hlen⟩ := coalesceFrom_isSome addr ep setGSO 0 bufs
    (s := { mem, msgs, count := 0, gsoSize := 0, dgramCnt := 0, endBatch := false })
      (by simpa using h)
    (fun hpos => absurd hpos (lt_irrefl 0))
  refine ⟨s.count, s.msgs, s.mem, ?_, hlen⟩
  rw [coalesceMessages, hs]
  rfl

end

/-- **A batch that fits the array is sent** or fails in the system calls; it is never out of
range. -/
theorem StdNetBind.send_isSome (s : StdNetBind) (write : List (Message A) → Option W)
    (disables : W → Bool)
    (ua : A) (ep : StdNetEndpoint) {bufs : List Slice} {msgs : List (Message A)} (mem : ℕ → Byte)
    (h : bufs.length ≤ msgs.length) : (s.send write disables ua ep bufs msgs mem).isSome := by
  have hfill : ∀ msgs' : List (Message A), msgs'.length = msgs.length →
      ∃ filled, fillMessages ua ep bufs msgs' = some filled := by
    intro msgs' hlen
    rw [← ne_none_iff_exists', Ne, fillMessages_eq_none_iff, hlen]
    exact not_lt.mpr h
  unfold send
  dsimp only
  generalize (if ep.is6 then s.blackhole6 else s.blackhole4) = blackhole
  generalize (if ep.is6 then s.ipv6 else s.ipv4) = conn
  generalize (if ep.is6 then s.ipv6TxOffload else s.ipv4TxOffload) = offload
  cases blackhole with
  -- a failed write with offload fills the messages again, one for each buffer
  | true => rfl
  | false =>
    cases conn with
    | false => rfl
    | true =>
      cases offload with
      | false =>
        obtain ⟨filled, hfilled⟩ := hfill msgs rfl
        simp [hfilled]
      | true =>
        obtain ⟨n, msgs', mem', hcoalesce, hlen⟩ := coalesceMessages_isSome ua ep setGSOSize mem h
        obtain ⟨filled, hfilled⟩ := hfill msgs' hlen
        simp only [hcoalesce, Bool.false_eq_true, if_false, Bool.not_true, if_true, bind_eq_bind,
          bind_some]
        cases write (msgs'.take n) with
        | none => rfl
        | some err =>
          simp only [hfilled, bind_some]
          split <;> rfl

end AmneziaWG.Conn
