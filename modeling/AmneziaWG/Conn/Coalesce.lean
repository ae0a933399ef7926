import AmneziaWG.Conn.BindStd
import AmneziaWG.Lib.Chunks
import Mathlib.Data.List.Forall2

/-!
# Joining Buffers for the Kernel

`coalesceMessages` joins buffers of one size, and a shorter one behind them, into one message with
a segment size; the kernel sends such a message as datagrams of that size.

The loop is followed with the groups of buffers that it has made so far: all groups but the last are
messages that are ready, and the last group is being filled (`Filling`).

## Main results

- `coalesceMessages_transparent`: the datagrams that the kernel sends are the buffers.
-/

namespace AmneziaWG.Conn

open AmneziaWG.Lib List Option BitVec Nat Coalescing

variable {A : Type}

/-! ## §1 What the kernel sends -/

def Control.segmentSize (control : Control) : Option (BitVec 16) :=
  control.messages.findSome? fun
    | .udpSegment gsoSize => some gsoSize
    | _ => none

/-- The datagrams of a message under `UDP_SEGMENT`. -/
def Message.datagrams (mem : ℕ → Byte) (msg : Message A) : List Bytes :=
  match msg.oob.segmentSize with
  | none => [msg.buffer.read mem]
  | some gsoSize => chunks gsoSize.toNat (msg.buffer.read mem)

/-- The control data that `NewStdNetBind` makes has room for a source and a segment size. -/
def Control.Roomy (control : Control) : Prop := stickyControlSize + gsoControlSize ≤ control.cap

theorem controlLen_endpoint (ep : StdNetEndpoint) : controlLen ep.control ≤ stickyControlSize := by
  rcases ep with ⟨is6, _ | ⟨info⟩ | ⟨info⟩⟩ <;>
    simp [controlLen, StdNetEndpoint.control, ControlMessage.space, stickyControlSize]

theorem messages_setSrcControl {control : Control} (h : control.Roomy) (ep : StdNetEndpoint) :
    (setSrcControl control ep).messages = ep.control ∧
      (setSrcControl control ep).cap = control.cap := by
  have hfits : controlLen ep.control ≤ control.cap :=
    le_trans (controlLen_endpoint ep) (le_trans (le_add_right _ _) h)
  rw [setSrcControl, dif_pos hfits]
  exact ⟨rfl, rfl⟩

theorem findSome_endpoint (ep : StdNetEndpoint) (rest : List ControlMessage) :
    ((ep.control ++ rest).findSome? fun
        | .udpSegment gsoSize => some gsoSize
        | _ => none) =
      rest.findSome? fun
        | .udpSegment gsoSize => some gsoSize
        | _ => none := by
  rcases ep with ⟨is6, _ | info⟩ <;> rfl

theorem segmentSize_setSrcControl {control : Control} (h : control.Roomy) (ep : StdNetEndpoint) :
    (setSrcControl control ep).segmentSize = none := by
  have hnil := findSome_endpoint ep []
  rw [append_nil] at hnil
  rw [Control.segmentSize, (messages_setSrcControl h ep).1, hnil]
  rfl

theorem segmentSize_setGSOSize {control : Control} (h : control.Roomy) (ep : StdNetEndpoint)
    (gsoSize : BitVec 16) :
    (setGSOSize (setSrcControl control ep) gsoSize).segmentSize = some gsoSize := by
  obtain ⟨hmessages, hcap⟩ := messages_setSrcControl h ep
  have hfits : controlLen (setSrcControl control ep).messages + gsoControlSize ≤
      (setSrcControl control ep).cap := by
    rw [hmessages, hcap]
    exact Nat.le_trans (Nat.add_le_add_right (controlLen_endpoint ep) _) h
  rw [setGSOSize, dif_pos hfits]
  simp only [Control.segmentSize]
  rw [hmessages, findSome_endpoint]
  rfl

/-! ## §2 Groups of buffers -/

/-- The message holds a group of buffers: what is sent is what the buffers held in `mem₀`, and the
message is within the limits of the kernel. -/
structure Carries (mem₀ mem : ℕ → Byte) (addr : A) (ep : StdNetEndpoint) (group : List Slice)
    (msg : Message A) : Prop where
  nonempty : group ≠ []
  datagrams : msg.datagrams mem = group.map (·.read mem₀)
  segments : (msg.datagrams mem).length ≤ udpSegmentMaxDatagrams
  length : msg.buffer.len ≤ maxPayloadLen ep
  segmentSize : msg.oob.segmentSize.isSome ↔ 2 ≤ group.length
  addr_eq : msg.addr = some addr

/-- The message is being filled with a group of buffers, and has no segment size yet. -/
structure Filling (mem₀ : ℕ → Byte) (addr : A) (ep : StdNetEndpoint) (group : List Slice)
    (s : Coalescing A) (msg : Message A) : Prop where
  read : msg.buffer.read s.mem = (group.map (·.read mem₀)).flatten
  chunked : Chunked s.gsoSize (group.map (·.read mem₀))
  full : s.endBatch = false → msg.buffer.len % s.gsoSize = 0
  dgramCnt : s.dgramCnt = group.length
  segments : group.length ≤ udpSegmentMaxDatagrams
  length : msg.buffer.len ≤ maxPayloadLen ep
  gsoSize_lt : s.gsoSize < 2 ^ 16
  control : ∃ control : Control, control.Roomy ∧ msg.oob = setSrcControl control ep
  addr_eq : msg.addr = some addr

section Groups

variable {mem₀ : ℕ → Byte} {addr : A} {ep : StdNetEndpoint} {group : List Slice} {s : Coalescing A}
  {msg : Message A}

theorem Carries.of_read_eq {mem mem' : ℕ → Byte} (h : Carries mem₀ mem addr ep group msg)
    (hread : msg.buffer.read mem' = msg.buffer.read mem) : Carries mem₀ mem' addr ep group msg := by
  have hdatagrams : msg.datagrams mem' = msg.datagrams mem := by
    unfold Message.datagrams
    rw [hread]
  exact { h with
    datagrams := hdatagrams.trans h.datagrams
    segments := hdatagrams ▸ h.segments }

theorem Filling.carries_single (h : Filling mem₀ addr ep group s msg) (hone : group.length = 1) :
    Carries mem₀ s.mem addr ep group msg := by
  obtain ⟨buf, rfl⟩ := length_eq_one_iff.mp hone
  obtain ⟨control, hroomy, hoob⟩ := h.control
  have hnone : msg.oob.segmentSize = none := by
    rw [hoob]
    exact segmentSize_setSrcControl hroomy ep
  have hdatagrams : msg.datagrams s.mem = [buf].map (·.read mem₀) := by
    rw [Message.datagrams, hnone, h.read]
    simp
  refine ⟨by simp, hdatagrams, ?_, h.length, ?_, h.addr_eq⟩
  · rw [hdatagrams]
    exact h.segments
  · rw [hnone]
    simp

/-- A message with its segment size is cut into the buffers again. -/
theorem Filling.carries_withGSO (h : Filling mem₀ addr ep group s msg) (htwo : 2 ≤ group.length) :
    Carries mem₀ s.mem addr ep group (msg.withGSO setGSOSize s.gsoSize) := by
  obtain ⟨control, hroomy, hoob⟩ := h.control
  have hsome : (msg.withGSO setGSOSize s.gsoSize).oob.segmentSize =
      some (BitVec.ofNat 16 s.gsoSize) := by
    show (setGSOSize msg.oob _).segmentSize = _
    rw [hoob]
    exact segmentSize_setGSOSize hroomy ep _
  have hsize : (BitVec.ofNat 16 s.gsoSize).toNat = s.gsoSize := by
    rw [toNat_ofNat]
    exact mod_eq_of_lt h.gsoSize_lt
  have hread : (msg.withGSO setGSOSize s.gsoSize).buffer.read s.mem =
      (group.map (·.read mem₀)).flatten := h.read
  have hdatagrams : (msg.withGSO setGSOSize s.gsoSize).datagrams s.mem =
      group.map (·.read mem₀) := by
    rw [Message.datagrams, hsome]
    simp only [hsize, hread]
    exact chunks_flatten h.chunked
  refine ⟨?_, hdatagrams, ?_, h.length, ?_, h.addr_eq⟩
  · rintro rfl
    simp at htwo
  · rw [hdatagrams, length_map]
    exact h.segments
  · rw [hsome]
    simp [htwo]

theorem Filling.first {buf : Slice} (hpos : 0 < buf.len) (hle : buf.len ≤ maxIPv4PayloadLen)
    (hroomy : msg.oob.Roomy) (hread : buf.read s.mem = buf.read mem₀) (hsize : s.gsoSize = buf.len)
    (hcnt : s.dgramCnt = 1) : Filling mem₀ addr ep [buf] s
      { msg with buffer := buf, oob := setSrcControl msg.oob ep, addr := some addr } where
  read := by simpa using hread
  chunked := by
    rw [hsize]
    simpa [Chunked] using hpos
  full _ := by
    rw [hsize]
    exact mod_self _
  dgramCnt := hcnt
  segments := by
    show 1 ≤ 64
    decide
  length := by
    refine le_trans hle ?_
    unfold maxPayloadLen
    split <;> decide
  gsoSize_lt := by
    rw [hsize]
    exact lt_of_le_of_lt hle (by decide)
  control := ⟨msg.oob, hroomy, rfl⟩
  addr_eq := rfl

theorem Filling.join (h : Filling mem₀ addr ep group s msg) {buf : Slice} (hpos : 0 < buf.len)
    (hjoins : s.Joins ep msg buf) (hread : buf.read s.mem = buf.read mem₀) (isLast : Bool) :
    Filling mem₀ addr ep (group ++ [buf]) (s.join setGSOSize msg buf isLast hjoins.2.2.1)
      { msg with buffer := msg.buffer.extend buf.len hjoins.2.2.1 } := by
  obtain ⟨hlen, hsize, hcap, hcnt, hend⟩ := hjoins
  -- as long as the batch is open, all buffers of the group are full segments
  have hfull : (group.map (·.read mem₀)).flatten.length % s.gsoSize = 0 := by
    rw [← h.read, Slice.length_read]
    exact h.full hend
  constructor
  case read =>
    simp only [Coalescing.join]
    rw [Slice.read_extend _ _ (Slice.length_read _ _), h.read, hread]
    simp
  case chunked =>
    rw [map_append]
    exact h.chunked.append hfull (by simpa using hpos) (by simpa using hsize)
  case full =>
    intro hopen
    -- the batch is still open, so the buffer is a full segment
    have hbuf : buf.len = s.gsoSize := by
      simp only [Coalescing.join, hend, Bool.false_or, decide_eq_false_iff_not] at hopen
      omega
    show (msg.buffer.len + buf.len) % s.gsoSize = 0
    rw [hbuf, add_mod_right]
    exact h.full hend
  case dgramCnt =>
    show s.dgramCnt + 1 = _
    rw [h.dgramCnt, length_append]
    rfl
  case segments =>
    rw [length_append, ← h.dgramCnt]
    exact hcnt
  case length =>
    show msg.buffer.len + buf.len ≤ _
    rw [add_comm]
    exact hlen
  case gsoSize_lt => exact h.gsoSize_lt
  case control => exact h.control
  case addr_eq => exact h.addr_eq

end Groups

/-! ## §3 The loop -/

/-- The loop is over: every message is ready, and the messages behind them have not been touched. -/
def Finished (mem₀ : ℕ → Byte) (msgs₀ : List (Message A)) (addr : A) (ep : StdNetEndpoint)
    (bufs : List Slice) (s : Coalescing A) : Prop :=
  ∃ groups : List (List Slice), groups.length = s.count ∧ groups.flatten = bufs ∧
    List.Forall₂ (Carries mem₀ s.mem addr ep) groups (s.msgs.take s.count) ∧
    s.msgs.drop s.count = msgs₀.drop s.count

/-- The loop with `rest` still to come: the messages `done` are ready, and the message `cur` is
being filled. -/
structure Running (mem₀ : ℕ → Byte) (msgs₀ : List (Message A)) (addr : A) (ep : StdNetEndpoint)
    (groups : List (List Slice)) (group rest : List Slice) (done : List (Message A))
    (cur : Message A) (s : Coalescing A) : Prop where
  msgs : s.msgs = done ++ cur :: msgs₀.drop s.count
  count : s.count = done.length + 1
  room : s.count + rest.length ≤ msgs₀.length
  ready : List.Forall₂ (Carries mem₀ s.mem addr ep) groups done
  filling : Filling mem₀ addr ep group s cur
  single : rest = [] → group.length = 1
  unread : ∀ buf ∈ rest, buf.read s.mem = buf.read mem₀
  disjoint : (done.map (·.buffer) ++ cur.buffer :: rest).Pairwise Slice.Disjoint

section Loop

variable {mem₀ : ℕ → Byte} {msgs₀ : List (Message A)} {addr : A} {ep : StdNetEndpoint}
  {groups : List (List Slice)} {group rest : List Slice} {done : List (Message A)} {cur : Message A}
  {s : Coalescing A}

theorem Finished.of_append {s : Coalescing A} (hmsgs : s.msgs = done ++ cur :: msgs₀.drop s.count)
    (hcount : s.count = done.length + 1)
    (hready : List.Forall₂ (Carries mem₀ s.mem addr ep) groups done)
    (hcur : Carries mem₀ s.mem addr ep group cur) :
    Finished mem₀ msgs₀ addr ep (groups ++ [group]).flatten s := by
  have hsplit : s.msgs = (done ++ [cur]) ++ msgs₀.drop s.count := by
    rw [hmsgs, List.append_assoc]
    rfl
  have hlen : (done ++ [cur]).length = s.count := by
    rw [hcount, length_append]
    rfl
  refine ⟨groups ++ [group], ?_, rfl, ?_, ?_⟩
  · rw [length_append, hready.length_eq, hcount]
    rfl
  · rw [hsplit, take_left' hlen]
    exact rel_append hready (.cons hcur .nil)
  · rw [hsplit, drop_left' hlen]

/-- Writing behind the message that is being filled changes no other message. -/
theorem Running.ready_join (h : Running mem₀ msgs₀ addr ep groups group rest done cur s)
    {cells : Bytes} (hcap : cells.length ≤ cur.buffer.cap - cur.buffer.len) : List.Forall₂
      (Carries mem₀ (store s.mem (cur.buffer.ptr + cur.buffer.len) cells) addr ep) groups done := by
  have hlen := cur.buffer.len_le
  have hdisjoint := (pairwise_append.mp h.disjoint).2.2
  have hread : ∀ msg ∈ done,
      msg.buffer.read (store s.mem (cur.buffer.ptr + cur.buffer.len) cells) =
        msg.buffer.read s.mem := by
    intro msg hmsg
    have hd := hdisjoint msg.buffer (mem_map_of_mem hmsg) cur.buffer (mem_cons_self ..)
    exact Slice.read_store_of_disjoint hd.symm s.mem (by omega) (by omega)
  have hready := h.ready
  clear h hdisjoint
  induction hready with
  | nil => exact .nil
  | cons hmsg _ ih =>
    exact .cons (hmsg.of_read_eq (hread _ (mem_cons_self ..)))
      (ih fun msg hmem => hread msg (mem_cons_of_mem _ hmem))

/-- Writing behind the message that is being filled does not change the buffers to come. -/
theorem Running.unread_join (h : Running mem₀ msgs₀ addr ep groups group rest done cur s)
    {cells : Bytes} (hcap : cells.length ≤ cur.buffer.cap - cur.buffer.len) :
    ∀ buf ∈ rest, buf.read (store s.mem (cur.buffer.ptr + cur.buffer.len) cells) =
      buf.read mem₀ := by
  intro buf hbuf
  have hlen := cur.buffer.len_le
  have hd := (pairwise_cons.mp (pairwise_append.mp h.disjoint).2.1).1 buf hbuf
  rw [Slice.read_store_of_disjoint hd s.mem (by omega) (by omega)]
  exact h.unread buf hbuf

theorem Running.set_cur (h : Running mem₀ msgs₀ addr ep groups group rest done cur s)
    (msg : Message A) : s.msgs.set (s.count - 1) msg = done ++ msg :: msgs₀.drop s.count := by
  rw [h.msgs, h.count, Nat.add_sub_cancel, List.set_append_right _ _ (Nat.le_refl _), Nat.sub_self]
  rfl

theorem Running.getElem_cur (h : Running mem₀ msgs₀ addr ep groups group rest done cur s) :
    s.msgs[s.count - 1]? = some cur := by
  rw [h.msgs, h.count, Nat.add_sub_cancel, List.getElem?_append_right (Nat.le_refl _), Nat.sub_self]
  rfl

theorem Running.join_last {buf : Slice}
    (h : Running mem₀ msgs₀ addr ep groups group [buf] done cur s) (hpos : 0 < buf.len)
    (hjoins : s.Joins ep cur buf) : Finished mem₀ msgs₀ addr ep (groups ++ [group ++ [buf]]).flatten
      (s.join setGSOSize cur buf true hjoins.2.2.1) := by
  have hread := h.unread buf (mem_cons_self ..)
  have hcap : (buf.read s.mem).length ≤ cur.buffer.cap - cur.buffer.len := by
    rw [Slice.length_read]
    exact hjoins.2.2.1
  have htwo : 2 ≤ (group ++ [buf]).length := by
    have hgroup : group ≠ [] := by
      rintro rfl
      exact h.filling.chunked
    have := length_pos_iff.mpr hgroup
    rw [length_append, length_singleton]
    omega
  exact Finished.of_append (h.set_cur _) h.count (h.ready_join hcap)
    ((h.filling.join hpos hjoins hread true).carries_withGSO htwo)

theorem Running.join_step {buf : Slice}
    (h : Running mem₀ msgs₀ addr ep groups group (buf :: rest) done cur s) (hpos : 0 < buf.len)
    (hjoins : s.Joins ep cur buf) (hrest : rest ≠ []) :
    Running mem₀ msgs₀ addr ep groups (group ++ [buf]) rest done
      { cur with buffer := cur.buffer.extend buf.len hjoins.2.2.1 }
      (s.join setGSOSize cur buf false hjoins.2.2.1) := by
  have hread := h.unread buf (mem_cons_self ..)
  have hcap : (buf.read s.mem).length ≤ cur.buffer.cap - cur.buffer.len := by
    rw [Slice.length_read]
    exact hjoins.2.2.1
  constructor
  case msgs => exact h.set_cur _
  case count => exact h.count
  case room =>
    have := h.room
    rw [length_cons] at this
    show s.count + rest.length ≤ _
    omega
  case ready => exact h.ready_join hcap
  case filling => exact h.filling.join hpos hjoins hread false
  case single => exact fun hnil => absurd hnil hrest
  case unread => exact fun b hb => h.unread_join hcap b (mem_cons_of_mem _ hb)
  case disjoint =>
    -- the array of a message does not change when it is extended
    have hsub : (done.map (·.buffer) ++ cur.buffer :: rest).Sublist
        (done.map (·.buffer) ++ cur.buffer :: buf :: rest) :=
      List.Sublist.append_left ((sublist_cons_self buf rest).cons_cons _) _
    have hpairs := pairwise_append.mp (h.disjoint.sublist hsub)
    have hcur := pairwise_cons.mp hpairs.2.1
    refine pairwise_append.mpr ⟨hpairs.1, pairwise_cons.mpr ⟨hcur.1, hcur.2⟩, ?_⟩
    intro b hb b' hb'
    rcases mem_cons.mp hb' with rfl | hb'
    · exact hpairs.2.2 b hb cur.buffer (mem_cons_self ..)
    · exact hpairs.2.2 b hb b' (mem_cons_of_mem _ hb')

/-- The message that is being filled, as it is left when the next one is started. -/
def Coalescing.closed (s : Coalescing A) (cur : Message A) : Message A :=
  if s.dgramCnt > 1 then cur.withGSO setGSOSize s.gsoSize else cur

theorem Filling.carries_closed (h : Filling mem₀ addr ep group s cur) :
    Carries mem₀ s.mem addr ep group (s.closed cur) := by
  unfold closed
  split_ifs with hcnt
  · exact h.carries_withGSO (h.dgramCnt ▸ hcnt)
  · refine h.carries_single ?_
    have hpos : group ≠ [] := by
      rintro rfl
      exact h.chunked
    have := length_pos_iff.mpr hpos
    have := h.dgramCnt
    omega

theorem Running.start_step {buf : Slice}
    (h : Running mem₀ msgs₀ addr ep groups group (buf :: rest) done cur s) (hpos : 0 < buf.len)
    (hle : buf.len ≤ maxIPv4PayloadLen) (hroomy : ∀ msg ∈ msgs₀, msg.oob.Roomy) :
    ∃ cur' s', s.start addr ep setGSOSize buf = some s' ∧
      Running mem₀ msgs₀ addr ep (groups ++ [group]) [buf] rest (done ++ [s.closed cur])
        cur' s' := by
  have hroom := h.room
  rw [length_cons] at hroom
  have hlt : s.count < msgs₀.length := by omega
  -- the message that was being filled is closed
  have hclosed :
    (if s.dgramCnt > 1 then s.msgs.modify (s.count - 1) (·.withGSO setGSOSize s.gsoSize)
      else s.msgs) = (done ++ [s.closed cur]) ++ msgs₀.drop s.count := by
    unfold closed
    split_ifs
    · rw [modify_eq_set_getElem?, h.getElem_cur]
      show s.msgs.set (s.count - 1) _ = _
      rw [h.set_cur, List.append_assoc]
      rfl
    · rw [h.msgs, List.append_assoc]
      rfl
  have hlen : (done ++ [s.closed cur]).length = s.count := by
    rw [h.count, length_append]
    rfl
  have hdrop : msgs₀.drop s.count = msgs₀[s.count] :: msgs₀.drop (s.count + 1) :=
    drop_eq_getElem_cons hlt
  -- the next free message gets the buffer, with a control for the source
  set new : Message A := { msgs₀[s.count] with
    buffer := buf, oob := setSrcControl msgs₀[s.count].oob ep, addr := some addr } with hnew
  set s' : Coalescing A := { s with
    msgs := (done ++ [s.closed cur]) ++ new :: msgs₀.drop (s.count + 1)
    count := s.count + 1, gsoSize := buf.len, dgramCnt := 1, endBatch := false } with hs'
  have hstart : s.start addr ep setGSOSize buf = some s' := by
    simp only [start]
    rw [hclosed, hdrop, List.getElem?_append_right (Nat.le_of_eq hlen), hlen, Nat.sub_self,
      getElem?_cons_zero, bind_eq_bind, bind_some,
      List.set_append_right _ _ (Nat.le_of_eq hlen), hlen, Nat.sub_self, List.set_cons_zero]
    rfl
  refine ⟨new, s', hstart, ?_⟩
  constructor
  case msgs => rfl
  case count =>
    show s.count + 1 = _
    rw [hlen]
  case room =>
    show s.count + 1 + rest.length ≤ _
    omega
  case ready => exact rel_append h.ready (.cons h.filling.carries_closed .nil)
  case filling =>
    exact Filling.first hpos hle (hroomy _ (getElem_mem hlt))
      (h.unread buf (mem_cons_self ..)) rfl rfl
  case single => exact fun _ => rfl
  case unread => exact fun b hb => h.unread b (mem_cons_of_mem _ hb)
  case disjoint =>
    -- closing writes to the control only, so the arrays are those of before
    have hbuffer : (s.closed cur).buffer = cur.buffer := by
      unfold closed
      split_ifs <;> rfl
    have hlist : (done ++ [s.closed cur]).map (·.buffer) ++ buf :: rest =
        done.map (·.buffer) ++ cur.buffer :: buf :: rest := by
      rw [List.map_append, List.map_singleton, hbuffer, List.append_assoc]
      rfl
    show ((done ++ [s.closed cur]).map (·.buffer) ++ buf :: rest).Pairwise Slice.Disjoint
    rw [hlist]
    exact h.disjoint

/-- What a buffer must be: not empty, and not longer than an IPv4 datagram can carry. -/
def Sendable (buf : Slice) : Prop := 0 < buf.len ∧ buf.len ≤ maxIPv4PayloadLen

/-- The loop makes all messages ready. -/
theorem Running.finish (h : Running mem₀ msgs₀ addr ep groups group rest done cur s)
    (hrest : ∀ buf ∈ rest, Sendable buf) (hroomy : ∀ msg ∈ msgs₀, msg.oob.Roomy) {i : ℕ}
    (hi : 0 < i) : ∃ s', coalesceFrom addr ep setGSOSize i rest s = some s' ∧
      Finished mem₀ msgs₀ addr ep (groups.flatten ++ group ++ rest) s' := by
  -- on the buffers to come; `Running` is the invariant of the loop
  induction rest generalizing groups group done cur s i with
  | nil =>
    have hdone :=
      Finished.of_append h.msgs h.count h.ready (h.filling.carries_single (h.single rfl))
    refine ⟨s, rfl, ?_⟩
    simpa using hdone
  | cons buf rest ih =>
    obtain ⟨hpos, hle⟩ := hrest buf (mem_cons_self ..)
    have hrest' : ∀ b ∈ rest, Sendable b := fun b hb => hrest b (mem_cons_of_mem _ hb)
    unfold coalesceFrom
    rw [step, if_pos hi, h.getElem_cur]
    by_cases hjoins : s.Joins ep cur buf
    · -- the last buffer that joins also sets the segment size
      simp only [dif_pos hjoins]
      cases rest with
      | nil =>
        refine ⟨_, rfl, ?_⟩
        simpa using h.join_last hpos hjoins
      | cons next rest =>
        obtain ⟨s', hrun, hdone⟩ :=
          ih (h.join_step hpos hjoins (cons_ne_nil _ _)) hrest' (succ_pos i)
        refine ⟨s', hrun, ?_⟩
        simpa using hdone
    · -- the message is closed, and the buffer starts the next one
      simp only [dif_neg hjoins]
      obtain ⟨cur', s₁, hstart, hrunning⟩ := h.start_step hpos hle hroomy
      obtain ⟨s', hrun, hdone⟩ := ih hrunning hrest' (succ_pos i)
      refine ⟨s', ?_, ?_⟩
      · rw [hstart]
        exact hrun
      · simpa using hdone

theorem running_first (mem₀ : ℕ → Byte) (addr : A) (ep : StdNetEndpoint) {buf : Slice}
    (hbuf : Sendable buf) (hroom : rest.length + 1 ≤ msgs₀.length)
    (hroomy : ∀ msg ∈ msgs₀, msg.oob.Roomy) (hdisjoint : (buf :: rest).Pairwise Slice.Disjoint) :
    ∃ cur s, Coalescing.start addr ep setGSOSize
        { mem := mem₀, msgs := msgs₀, count := 0, gsoSize := 0, dgramCnt := 0,
          endBatch := false } buf = some s ∧
      Running mem₀ msgs₀ addr ep [] [buf] rest [] cur s := by
  obtain ⟨msg, msgs, rfl⟩ : ∃ msg msgs, msgs₀ = msg :: msgs :=
    exists_cons_of_length_pos (lt_of_lt_of_le (succ_pos _) hroom)
  set cur : Message A :=
    { msg with buffer := buf, oob := setSrcControl msg.oob ep, addr := some addr }
  refine ⟨cur, { mem := mem₀, msgs := cur :: msgs, count := 1, gsoSize := buf.len, dgramCnt := 1
                 endBatch := false }, rfl, ?_⟩
  constructor
  case msgs => rfl
  case count => rfl
  case room =>
    show 0 + 1 + rest.length ≤ _
    omega
  case ready => exact .nil
  case filling =>
    exact Filling.first hbuf.1 hbuf.2 (hroomy msg (mem_cons_self ..)) rfl rfl rfl
  case single => exact fun _ => rfl
  case unread => exact fun _ _ => rfl
  case disjoint => exact hdisjoint

end Loop

/-! ## §4 Transparency -/

theorem length_le_of_carries {mem₀ mem : ℕ → Byte} {addr : A} {ep : StdNetEndpoint}
    {groups : List (List Slice)} {msgs : List (Message A)}
    (h : List.Forall₂ (Carries mem₀ mem addr ep) groups msgs) :
    msgs.length ≤ groups.flatten.length := by
  induction h with
  | nil => exact le_refl _
  | cons hmsg _ ih =>
    have := length_pos_iff.mpr hmsg.nonempty
    rw [flatten_cons, length_append, length_cons]
    omega

theorem datagrams_of_carries {mem₀ mem : ℕ → Byte} {addr : A} {ep : StdNetEndpoint}
    {groups : List (List Slice)} {msgs : List (Message A)}
    (h : List.Forall₂ (Carries mem₀ mem addr ep) groups msgs) :
    msgs.flatMap (·.datagrams mem) = groups.flatten.map (·.read mem₀) := by
  induction h with
  | nil => rfl
  | cons hmsg _ ih => rw [flatMap_cons, hmsg.datagrams, ih, flatten_cons, map_append]

/-- `coalesceMessages` with `setGSOSize` on messages as the bind pools them: the first `n` messages
are ready and the others have not been touched; what the kernel sends for them is the buffers, in
order and as they were, and every message is within the limits and has a segment size exactly when
it holds two buffers or more. -/
theorem coalesceMessages_transparent (addr : A) (ep : StdNetEndpoint) {bufs : List Slice}
    {msgs : List (Message A)} (mem : ℕ → Byte) (hne : bufs ≠ [])
    (hsendable : ∀ buf ∈ bufs, 0 < buf.len ∧ buf.len ≤ 65507)
    (hdisjoint : bufs.Pairwise Slice.Disjoint) (hroom : bufs.length ≤ msgs.length)
    (hroomy : ∀ msg ∈ msgs, stickyControlSize + gsoControlSize ≤ msg.oob.cap) :
    ∃ n msgs' mem', coalesceMessages addr ep setGSOSize bufs msgs mem = some (n, msgs', mem') ∧
      n ≤ bufs.length ∧ msgs'.drop n = msgs.drop n ∧
      (msgs'.take n).flatMap (·.datagrams mem') = bufs.map (·.read mem) ∧
      ∃ groups : List (List Slice), groups.length = n ∧ groups.flatten = bufs ∧
        List.Forall₂ (Carries mem mem' addr ep) groups (msgs'.take n) := by
  obtain ⟨buf, rest, rfl⟩ := List.exists_cons_of_ne_nil hne
  obtain ⟨cur, s, hstart, hrunning⟩ := running_first mem addr ep
    (hsendable buf (List.mem_cons_self ..)) hroom hroomy hdisjoint
  obtain ⟨s', hrun, groups, hcount, hflatten, hready, htail⟩ :=
    hrunning.finish (fun b hb => hsendable b (List.mem_cons_of_mem _ hb)) hroomy Nat.one_pos
  replace hflatten : groups.flatten = buf :: rest := hflatten
  refine ⟨s'.count, s'.msgs, s'.mem, ?_, ?_, htail, ?_, groups, hcount, hflatten, hready⟩
  · rw [coalesceMessages, coalesceFrom, step, if_neg (Nat.lt_irrefl 0), hstart]
    simp only [Option.bind_eq_bind, Option.bind_some]
    rw [hrun]
    rfl
  · rw [← hcount, hready.length_eq, ← hflatten]
    exact length_le_of_carries hready
  · rw [datagrams_of_carries hready, hflatten]

/-- Two buffers of two bytes and one byte, for messages with a pooled control. -/
theorem coalesceMessages_transparent_two :
    let control : Control := { cap := 64, messages := [], fits := by decide }
    let msg : Message Unit :=
      { buffer := ⟨0, 0, 0, by decide⟩, n := 0, oob := control, addr := none }
    let bufs : List Slice := [⟨0, 2, 3, by decide⟩, ⟨10, 1, 1, by decide⟩]
    ∃ n msgs' mem', coalesceMessages () { is6 := false, src := none } setGSOSize bufs [msg, msg]
        (fun a => BitVec.ofNat 8 a) = some (n, msgs', mem') ∧
      (msgs'.take n).flatMap (·.datagrams mem') = [[0, 1], [10]] := by
  intro control msg bufs
  have hsendable : ∀ buf ∈ bufs, 0 < buf.len ∧ buf.len ≤ 65507 := by simp [bufs]
  have hdisjoint : bufs.Pairwise Slice.Disjoint := by simp [bufs, Slice.Disjoint]
  have hroom : bufs.length ≤ [msg, msg].length := by simp [bufs]
  have hroomy : ∀ m ∈ [msg, msg], stickyControlSize + gsoControlSize ≤ m.oob.cap := by
    simp [msg, control, stickyControlSize, gsoControlSize]
  obtain ⟨n, msgs', mem', hrun, -, -, hdatagrams, -⟩ :=
    coalesceMessages_transparent () { is6 := false, src := none } (fun a => BitVec.ofNat 8 a)
      (cons_ne_nil _ _) hsendable hdisjoint hroom hroomy
  exact ⟨n, msgs', mem', hrun, hdatagrams⟩

end AmneziaWG.Conn
