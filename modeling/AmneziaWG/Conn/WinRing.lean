import AmneziaWG.Lib.Transition
import Mathlib.Data.List.Range

/-!
# The Rings of the Windows Bind

Embedding of `Send` and `Receive` of `afWinRingBind` (`conn/bind_windows.go`) with the rings that
they push packets to.  The kernel is the queue of the requests that were posted and not yet
dequeued.

`Push` comes before the request is posted, so that a slot stays occupied when posting fails.  And
`Receive` posts a new request before it reads the packet: the ring is full at that time, and the new
request gets the slot of the packet.

## Main results

- `Queue.Aligned.pop` and `Queue.Aligned.push`: while posting succeeds, the outstanding requests are
  the occupied slots.
- `never_shared`: then no slot is shared, if no receive request completes with a packet.
- `shared_slot`: a request that cannot be posted, and a packet that is received.
-/

namespace AmneziaWG.Conn

open AmneziaWG.Lib List Option

/-! ## §1 Rings -/

/-- `ringBuffer`, with 1024 slots. -/
structure Ring where
  head : BitVec 32
  tail : BitVec 32
  isFull : Bool

/-- `Push`: the slot, and the ring afterwards; `none` is the panic. -/
def Ring.push (rb : Ring) : Option (ℕ × Ring) :=
  if rb.isFull then none
  else
    let tail := rb.tail + 1
    some (rb.tail.toNat % 1024,
      { rb with tail, isFull := tail.toNat % 1024 = rb.head.toNat % 1024 })

/-- `Return`. -/
def Ring.giveBack (rb : Ring) (count : ℕ) : Ring :=
  if rb.head.toNat % 1024 = rb.tail.toNat % 1024 ∧ rb.isFull = false then rb
  else { rb with head := rb.head + BitVec.ofNat 32 count, isFull := false }

def Ring.occupied (rb : Ring) : ℕ := if rb.isFull then 1024 else (rb.tail - rb.head).toNat % 1024

/-- A ring, and the slots of the outstanding requests in the order of posting. -/
structure Queue where
  ring : Ring
  outstanding : List ℕ

/-- `count` completions are dequeued and given back. -/
def Queue.pop (q : Queue) (count : ℕ) : Queue :=
  { ring := if count > 0 then q.ring.giveBack count
    else q.ring, outstanding := q.outstanding.drop count }

/-! ## §2 The bind -/

structure RingBind where
  rx : Queue
  tx : Queue
  /-- `Push` has panicked. -/
  panicked : Bool
  /-- A slot of an outstanding request has been read or written. -/
  shared : Bool

/-- A call, or a round of `Receive`, with what the kernel answers. -/
inductive RingCall where
  /-- `dequeued` completions; `wait` is how many there are after waiting, if that succeeds and the
  bind is still open. -/
  | send (dequeued : ℕ) (wait : Option ℕ) (posted : Bool)
  /-- The status of a completion, if there is one. -/
  | receive (status : Option ℕ) (posted : Bool)

/-- `Send` from the completions on. -/
def RingBind.sendPacket (b : RingBind) (count : ℕ) (posted : Bool) : RingBind :=
  let q := b.tx.pop count
  match q.ring.push with
  | none => { b with tx := q, panicked := true }
  | some (slot, ring) =>
    { b with
      tx := { ring, outstanding := if posted then q.outstanding ++ [slot] else q.outstanding }
      shared := b.shared || decide (slot ∈ q.outstanding) }

/-- `Receive` from the completion on. -/
def RingBind.receivePacket (b : RingBind) (completed status : ℕ) (posted : Bool) : RingBind :=
  let q := b.rx.pop 1
  match q.ring.push with
  | none => { b with rx := q, panicked := true }
  | some (slot, ring) =>
    let outstanding := if posted then q.outstanding ++ [slot] else q.outstanding
    { b with
      rx := { ring, outstanding }
      shared := b.shared || (posted && status = 0 && decide (completed ∈ outstanding)) }

/-- One call; `none` when there are not so many completions. -/
def ringStep (b : RingBind) : RingCall → Option RingBind
  | .send dequeued wait posted =>
    if dequeued > b.tx.outstanding.length then none
    else if dequeued = 0 ∧ b.tx.ring.isFull = true then
      match wait with
      | none => some b
      | some count =>
        if count > b.tx.outstanding.length then none
        else if count = 0 then some b
        else some (b.sendPacket count posted)
    else some (b.sendPacket dequeued posted)
  | .receive none _ => some b
  | .receive (some status) posted => b.rx.outstanding.head?.map fun slot =>
      b.receivePacket slot status posted

/-- After `Open`: a request for every slot of `rx`. -/
def RingBind.opened : RingBind where
  rx := { ring := ⟨0, 1024, true⟩, outstanding := List.range 1024 }
  tx := { ring := ⟨0, 0, false⟩, outstanding := [] }
  panicked := false
  shared := false

structure RingBind.Sound (b : RingBind) : Prop where
  rx : b.rx.ring.occupied = b.rx.outstanding.length
  tx : b.tx.ring.occupied = b.tx.outstanding.length
  panicked : b.panicked = false
  shared : b.shared = false

/-- Posting succeeds, and no request has received a packet. -/
def RingCall.Harmless : RingCall → Prop
  | .send _ _ posted => posted = true
  | .receive status posted => posted = true ∧ status ≠ some 0

/-! ## §3 Outstanding requests are occupied slots -/

/-- The outstanding requests are the `k` slots from `h` on. -/
structure Queue.Aligned (q : Queue) (h k : ℕ) : Prop where
  le : k ≤ 1024
  head : q.ring.head.toNat % 1024 = h % 1024
  tail : q.ring.tail.toNat % 1024 = (h + k) % 1024
  isFull : q.ring.isFull = decide (k = 1024)
  outstanding : q.outstanding = (List.range k).map fun i => (h + i) % 1024

variable {q : Queue} {h k : ℕ}

theorem Queue.Aligned.length (ha : q.Aligned h k) : q.outstanding.length = k := by
  rw [ha.outstanding, length_map, length_range]

theorem Queue.Aligned.occupied (ha : q.Aligned h k) : q.ring.occupied = q.outstanding.length := by
  rw [ha.length, Ring.occupied, ha.isFull]
  have hle := ha.le
  have hhead := ha.head
  have htail := ha.tail
  by_cases hk : k = 1024
  · simp [hk]
  · rw [if_neg (by simpa using hk), BitVec.toNat_sub]
    omega

theorem Queue.Aligned.pop {count : ℕ} (ha : q.Aligned h k) (hcount : count ≤ k) :
    (q.pop count).Aligned (h + count) (k - count) := by
  have hout : q.outstanding.drop count = (List.range (k - count)).map fun i =>
      (h + count + i) % 1024 := by
    refine ext_getElem (by simp [ha.outstanding]) fun i _ _ => ?_
    simp [ha.outstanding, Nat.add_assoc]
  obtain ⟨hle, hhead, htail, hfull, -⟩ := ha
  by_cases hzero : count = 0
  · subst hzero
    exact ⟨hle, hhead, htail, hfull, hout⟩
  · -- the ring is not empty
    have hguard : ¬(q.ring.head.toNat % 1024 = q.ring.tail.toNat % 1024 ∧
        q.ring.isFull = false) := by
      rw [hfull, decide_eq_false_iff_not]
      omega
    have hring : (q.pop count).ring =
        { q.ring with head := q.ring.head + BitVec.ofNat 32 count, isFull := false } := by
      rw [Queue.pop, if_pos (Nat.pos_of_ne_zero hzero), Ring.giveBack, if_neg hguard]
    refine ⟨by omega, ?_, ?_, ?_, hout⟩
    · rw [hring, BitVec.toNat_add, BitVec.toNat_ofNat]
      omega
    · rw [hring, htail]
      congr 1
      omega
    · rw [hring, eq_comm, decide_eq_false_iff_not]
      omega

/-- The next slot is free, and posting a request for it keeps the alignment. -/
theorem Queue.Aligned.push (ha : q.Aligned h k) (hk : k < 1024) :
    ∃ slot ring, q.ring.push = some (slot, ring) ∧ slot ∉ q.outstanding ∧
      Queue.Aligned ⟨ring, q.outstanding ++ [slot]⟩ h (k + 1) := by
  obtain ⟨-, hhead, htail, hfull, hout⟩ := ha
  refine ⟨_, _, if_neg (by rw [hfull, decide_eq_true_iff]; omega), ?_, by omega, hhead, ?_, ?_, ?_⟩
  · rw [htail, hout, List.mem_map]
    rintro ⟨i, hi, heq⟩
    have := mem_range.mp hi
    omega
  · show (q.ring.tail + 1#32).toNat % 1024 = _
    rw [BitVec.toNat_add, BitVec.toNat_ofNat]
    omega
  · show decide ((q.ring.tail + 1#32).toNat % 1024 = q.ring.head.toNat % 1024) = _
    rw [BitVec.toNat_add, BitVec.toNat_ofNat, decide_eq_decide]
    omega
  · rw [hout, htail, range_succ, map_append]
    rfl

/-! ## §4 Runs -/

structure RingBind.Aligned (b : RingBind) : Prop where
  rx : ∃ h k, b.rx.Aligned h k
  tx : ∃ h k, b.tx.Aligned h k
  panicked : b.panicked = false
  shared : b.shared = false

theorem RingBind.Aligned.sound {b : RingBind} (hb : b.Aligned) : b.Sound := by
  obtain ⟨⟨_, _, hrx⟩, ⟨_, _, htx⟩, hpanicked, hshared⟩ := hb
  exact ⟨hrx.occupied, htx.occupied, hpanicked, hshared⟩

theorem RingBind.Aligned.sendPacket {b : RingBind} (hb : b.Aligned) {count : ℕ}
    (hcount : count ≤ b.tx.outstanding.length) (hroom : 0 < count ∨ b.tx.ring.isFull = false) :
    (b.sendPacket count true).Aligned := by
  obtain ⟨h, k, htx⟩ := hb.tx
  rw [htx.length] at hcount
  have hk : k - count < 1024 := by
    have hle := htx.le
    rw [htx.isFull, decide_eq_false_iff_not] at hroom
    omega
  obtain ⟨slot, ring, hpush, hfree, haligned⟩ := (htx.pop hcount).push hk
  unfold RingBind.sendPacket
  simp only [hpush]
  exact ⟨hb.rx, ⟨_, _, haligned⟩, hb.panicked, by simp [hb.shared, hfree]⟩

theorem RingBind.Aligned.receivePacket {b : RingBind} (hb : b.Aligned) {completed status : ℕ}
    (hne : b.rx.outstanding ≠ []) (hstatus : status ≠ 0) :
    (b.receivePacket completed status true).Aligned := by
  obtain ⟨h, k, hrx⟩ := hb.rx
  have hk := hrx.le
  have hpos : 0 < k := hrx.length ▸ length_pos_iff.mpr hne
  obtain ⟨slot, ring, hpush, -, haligned⟩ := (hrx.pop hpos).push (by omega)
  unfold RingBind.receivePacket
  simp only [hpush]
  exact ⟨⟨_, _, haligned⟩, hb.tx, hb.panicked, by simp [hb.shared, hstatus]⟩

theorem ringStep_aligned {b b' : RingBind} (hb : b.Aligned) {call : RingCall}
    (hcall : call.Harmless) (hstep : ringStep b call = some b') : b'.Aligned := by
  cases call with
  | send dequeued wait posted =>
    cases show posted = true from hcall
    simp only [ringStep] at hstep
    split_ifs at hstep with hmany hwait
    · -- the ring is full: wait for a completion
      cases wait with
      | none =>
        cases hstep
        exact hb
      | some count =>
        dsimp only at hstep
        split_ifs at hstep with hmany' hzero
        · -- either a completion has come or there was no need to wait for one
          cases hstep
          exact hb
        · cases hstep
          exact hb.sendPacket (Nat.not_lt.mp hmany') (.inl (Nat.pos_of_ne_zero hzero))
    · cases hstep
      refine hb.sendPacket (Nat.not_lt.mp hmany) ?_
      rw [not_and, Bool.not_eq_true] at hwait
      exact (Nat.eq_zero_or_pos dequeued).elim (fun hzero => .inr (hwait hzero)) .inl
  | receive status posted =>
    obtain ⟨rfl, hstatus⟩ : posted = true ∧ status ≠ some 0 := hcall
    cases status with
    | none =>
      cases hstep
      exact hb
    | some status =>
      obtain ⟨slot, hhead, rfl⟩ := Option.map_eq_some_iff.mp hstep
      refine hb.receivePacket (fun hnil => ?_) fun hzero => hstatus (by rw [hzero])
      rw [hnil] at hhead
      cases hhead

theorem RingBind.opened_aligned : RingBind.opened.Aligned := by
  refine ⟨⟨0, 1024, Nat.le_refl _, rfl, rfl, rfl, ?_⟩, ⟨0, 0, Nat.zero_le _, rfl, rfl, rfl, rfl⟩,
    rfl, rfl⟩
  refine ext_getElem (by simp [RingBind.opened]) fun i hi _ => ?_
  have hlt : i < 1024 := by simpa [RingBind.opened] using hi
  simp [RingBind.opened, Nat.mod_eq_of_lt hlt]

/-- In every sequence of calls in which posting succeeds and no request has received a packet, the
occupied slots are those of the outstanding requests, `Push` does not panic, and no slot is
shared. -/
theorem never_shared {calls : List RingCall} {b : RingBind} (hcalls : ∀ call ∈ calls, call.Harmless)
    (hrun : runFrom ringStep .opened calls = some b) : b.Sound := by
  have hcond : Along ringStep (fun _ call => call.Harmless) .opened calls := along_of_forall hcalls
  exact (runFrom_invariant_along (fun _ _ _ hb hcall hstep => ringStep_aligned hb hcall hstep)
    RingBind.opened_aligned hcond hrun).sound

/-- Two sends, and a request that fails to receive. -/
theorem never_shared_sends :
    ∃ b, runFrom ringStep .opened [.send 0 none true, .receive (some 10040) true,
      .send 1 none true] = some b ∧ b.Sound := by
  have hrun : (runFrom ringStep .opened
      [.send 0 none true, .receive (some 10040) true, .send 1 none true]).isSome = true := by
        decide +kernel
  obtain ⟨b, hb⟩ := isSome_iff_exists.mp hrun
  exact ⟨b, hb, never_shared (by simp [RingCall.Harmless]) hb⟩

/-- A packet is read from a slot that has been posted again, and a slot stays occupied when its
request is not posted. -/
theorem shared_slot :
    (runFrom ringStep .opened [.receive (some 0) true]).map (·.shared) = some true ∧
      (runFrom ringStep .opened [.send 0 none false]).map
        (fun b => (b.tx.ring.occupied, b.tx.outstanding)) = some (1, []) := by
  decide +kernel

end AmneziaWG.Conn
