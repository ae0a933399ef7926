import AmneziaWG.Device.Uapi.Blocks
import AmneziaWG.Device.Uapi.Bookkeeping

/-!
# Peers of One Request

A request with several peers does what its parts do as requests of their own, but for the
keepalives: `pkaOn` outlives the block that set it, so a block that has no line about the keepalive
sends one when a block before it has turned its own on.

## Main results

- `runBlocks_cons`: what a block does, and to whom it sends a keepalive.
- `block_spec`: a block leaves everything of the other keys alone.
- `blocks_independent_iff`: one request and separate requests have the same outcome if and only if
  no block inherits the keepalive of another.
-/

set_option linter.dupNamespace false

namespace AmneziaWG.Device

open AmneziaWG.Lib List Option Nat

/-- What a block is about to do to the keepalive of its peer: the interval in force, what the peer
is, and whether the last line about the interval turned the keepalive on. -/
structure PkaState where
  interval : ℕ
  dummy : Bool
  created : Bool
  on : Option Bool

/-- A line of the block. -/
def PkaState.step {E : Type} (st : PkaState) : PeerSetting E → PkaState
  | .keepalive secs => { st with interval := secs, on := some (st.interval = 0 ∧ secs ≠ 0) }
  | .remove => { st with interval := 0, dummy := true }
  | .updateOnly => if st.created && !st.dummy then { st with interval := 0, dummy := true } else st
  | _ => st

namespace Device

variable {B E : Type} {env : Env B E}
variable {p : ℕ} {ipc : IpcSetPeer} {st : PkaState} {pkaOn : Bool}

/-! ## §1 Devices up to their keepalives -/

def withKeepalives (d : Device B E) (keepalives : List ℕ) : Device B E := { d with keepalives }

theorem withKeepalives_self (d : Device B E) : d.withKeepalives d.keepalives = d := rfl

theorem selectPeer_withKeepalives (d : Device B E) (K : List ℕ) (pk : Bytes) (pkaOn : Bool) :
    (d.withKeepalives K).selectPeer env pk pkaOn =
      (d.selectPeer env pk false).map fun r => (r.1.withKeepalives K, { r.2 with pkaOn }) := by
  unfold selectPeer
  rw [show (d.withKeepalives K).publicKey = d.publicKey from rfl,
    show (d.withKeepalives K).lookupPeer pk = d.lookupPeer pk from rfl]
  split_ifs
  · rfl
  · cases d.lookupPeer pk with
    | some p => rfl
    | none =>
      have hnew : (d.withKeepalives K).newPeer env pk =
          (d.newPeer env pk).map fun r => (r.1.withKeepalives K, r.2) := by
        unfold newPeer
        show (if d.isClosed then _ else if d.keyMap.length ≥ maxPeers then _
          else if (d.lookupPeer pk).isSome then _ else _) = _
        split_ifs <;> rfl
      rw [hnew]
      cases d.newPeer env pk <;> rfl

theorem removePeer_withKeepalives (d : Device B E) (K : List ℕ) (key : Bytes) :
    (d.withKeepalives K).removePeer key = (d.removePeer key).withKeepalives K := by
  unfold removePeer
  rw [show (d.withKeepalives K).lookupPeer key = d.lookupPeer key from rfl]
  cases d.lookupPeer key <;> rfl

/-- What a setting does to `pkaOn`, when the interval is the given one. -/
def turned (interval : ℕ) : PeerSetting E → Option Bool
  | .keepalive secs => some (interval = 0 ∧ secs ≠ 0)
  | _ => none

theorem applyPeerSetting_withKeepalives (d : Device B E) (K : List ℕ) (ipc : IpcSetPeer)
    (pkaOn : Bool) (p : ℕ) (s : PeerSetting E) :
    (d.withKeepalives K).applyPeerSetting { ipc with pkaOn } p s =
      ((d.applyPeerSetting ipc p s).1.withKeepalives K,
        { (d.applyPeerSetting ipc p s).2 with
          pkaOn := (turned (d.peer p).persistentKeepaliveInterval s).getD pkaOn }) := by
  cases s
  case updateOnly | remove =>
    simp only [applyPeerSetting]
    split_ifs
    · show (removePeer (d.withKeepalives K) (d.peer p).remoteStatic).dummyPeer _ = _
      rw [removePeer_withKeepalives]
      rfl
    · rfl
  case presharedKey | endpoint | keepalive | protocolVersion => rfl
  case replaceAllowedIPs | allowedIP =>
    simp only [applyPeerSetting]
    split_ifs <;> rfl

theorem handlePostConfig_withKeepalives (d : Device B E) (K : List ℕ) (ipc : IpcSetPeer)
    (hp : ipc.peer = some p) (pkaOn : Bool) :
    (d.withKeepalives K).handlePostConfig { ipc with pkaOn } =
      (d.handlePostConfig { ipc with pkaOn := false }).withKeepalives
        (K ++ if d.isUp && !ipc.dummy && pkaOn then [p] else []) := by
  obtain ⟨peer, dummy, created, on⟩ := ipc
  cases hp
  unfold handlePostConfig
  cases dummy with
  | true =>
    simp only [if_true, Bool.not_true, Bool.and_false, Bool.false_and, Bool.false_eq_true, if_false,
      append_nil]
  | false =>
    cases created <;> cases pkaOn <;>
      simp only [Bool.false_eq_true, if_false, if_true, Bool.not_false, Bool.and_true,
        Bool.and_false, append_nil, withKeepalives, modifyPeer, startPeer, isUp, isClosed] <;>
      split_ifs <;> first | rfl | simp only [append_nil]

/-! ## §2 The keepalive of a block -/

/-- The state of a block at its `public_key` line. -/
def pkaStart (d : Device B E) (pk : Bytes) : PkaState :=
  if d.publicKey = pk then { interval := 0, dummy := true, created := false, on := none }
  else
    match d.lookupPeer pk with
    | some p =>
      { interval := (d.peer p).persistentKeepaliveInterval
        dummy := false, created := false, on := none }
    | none => { interval := 0, dummy := false, created := true, on := none }

def PeerBlock.pka (b : PeerBlock E) (d : Device B E) : PkaState :=
  b.settings.foldl PkaState.step (d.pkaStart b.pk)

/-- The state describes the peer that is being configured. -/
def Tracks (d : Device B E) (ipc : IpcSetPeer) (st : PkaState) : Prop :=
  ∃ p, ipc.peer = some p ∧ (d.peer p).persistentKeepaliveInterval = st.interval ∧
    ipc.dummy = st.dummy ∧ ipc.created = st.created

theorem tracks_dummyPeer (d : Device B E) (hcreated : ipc.created = st.created)
    (hinterval : st.interval = 0) (hdummy : st.dummy = true) :
    Tracks (d.dummyPeer ipc).1 (d.dummyPeer ipc).2 st := by
  refine ⟨d.nextPeer, rfl, ?_, hdummy.symm, hcreated⟩
  rw [hinterval, dummyPeer, allocPeer]
  dsimp only
  rw [Function.update_self]
  rfl

theorem Tracks.step {d : Device B E} (h : Tracks d ipc st) (s : PeerSetting E) :
    Tracks (d.applyPeerSetting ipc (ipc.peer.getD 0) s).1
      (d.applyPeerSetting ipc (ipc.peer.getD 0) s).2
        (st.step s) ∧
      ∀ x, (turned (d.peer (ipc.peer.getD 0)).persistentKeepaliveInterval s).getD (st.on.getD x) =
        (st.step s).on.getD x := by
  obtain ⟨p, hp, hinterval, hdummy, hcreated⟩ := h
  rw [hp, getD_some]
  have hkeep : Tracks d ipc st := ⟨p, hp, hinterval, hdummy, hcreated⟩
  -- settings of one field of the peer
  have hmodify : ∀ f : Peer E → Peer E,
      (∀ peer, (f peer).persistentKeepaliveInterval = peer.persistentKeepaliveInterval) →
      Tracks (d.modifyPeer p f) ipc st := by
    intro f hf
    refine ⟨p, hp, ?_, hdummy, hcreated⟩
    rw [modifyPeer, ← hinterval, ← hf (d.peer p)]
    dsimp only
    rw [Function.update_self]
  cases s
  case updateOnly =>
    simp only [applyPeerSetting, PkaState.step, turned, getD_none, ← hcreated, ← hdummy]
    split
    · exact ⟨tracks_dummyPeer _ rfl rfl rfl, fun _ => rfl⟩
    · exact ⟨hkeep, fun _ => rfl⟩
  case remove => exact ⟨tracks_dummyPeer _ hcreated rfl rfl, fun _ => rfl⟩
  case presharedKey | endpoint =>
    simp only [applyPeerSetting]
    exact ⟨hmodify _ fun _ => rfl, fun _ => rfl⟩
  -- the line that turns keepalives on compares with the interval of before
  case keepalive secs =>
    refine ⟨⟨p, hp, ?_, hdummy, hcreated⟩, fun _ => ?_⟩
    · simp only [applyPeerSetting, modifyPeer, Function.update_self]
      rfl
    · simp only [turned, hinterval, PkaState.step, getD_some]
  case replaceAllowedIPs | allowedIP =>
    simp only [applyPeerSetting]
    split_ifs <;> exact ⟨⟨p, hp, hinterval, hdummy, hcreated⟩, fun _ => rfl⟩
  case protocolVersion => exact ⟨hkeep, fun _ => rfl⟩

/-- The settings of a block change `pkaOn` as its state says, and do nothing else with it. -/
theorem applyPeerSettings_withKeepalives (K : List ℕ) (x : Bool) (ss : List (PeerSetting E))
    {d : Device B E} (h : Tracks d ipc st) :
    (d.withKeepalives K).applyPeerSettings { ipc with pkaOn := st.on.getD x } ss =
        ((d.applyPeerSettings ipc ss).1.withKeepalives K,
          { (d.applyPeerSettings ipc ss).2 with pkaOn := (ss.foldl PkaState.step st).on.getD x }) ∧
      Tracks (d.applyPeerSettings ipc ss).1 (d.applyPeerSettings ipc ss).2
        (ss.foldl PkaState.step st) := by
  induction ss generalizing d ipc st with
  | nil => exact ⟨rfl, h⟩
  | cons s ss ih =>
    obtain ⟨htracks, hturned⟩ := h.step s
    obtain ⟨hrun, hend⟩ := ih htracks
    refine ⟨?_, hend⟩
    rw [applyPeerSettings]
    dsimp only
    rw [applyPeerSetting_withKeepalives, hturned]
    exact hrun

theorem tracks_selectPeer {d d' : Device B E} {pk : Bytes}
    (h : d.selectPeer env pk pkaOn = some (d', ipc)) : Tracks d' ipc (d.pkaStart pk) := by
  unfold pkaStart
  rcases selectPeer_cases h with ⟨hown, rfl, rfl⟩ | ⟨hown, p, hp, rfl, rfl⟩ | ⟨hown, hp, hnew, rfl⟩
  · rw [if_pos hown]
    refine ⟨d.nextPeer, rfl, ?_, rfl, rfl⟩
    simp only [allocPeer, Function.update_self]
    rfl
  · rw [if_neg hown, hp]
    exact ⟨p, rfl, rfl, rfl, rfl⟩
  · rw [if_neg hown, hp]
    obtain ⟨-, rfl⟩ := newPeer_eq hnew
    refine ⟨d.nextPeer, rfl, ?_, rfl, rfl⟩
    simp only [allocPeer, Function.update_self]
    rfl

theorem selectPeer_state {d d' : Device B E} {pk : Bytes}
    (h : d.selectPeer env pk pkaOn = some (d', ipc)) : d'.state = d.state := by
  rcases selectPeer_cases h with ⟨-, rfl, -⟩ | ⟨-, p, -, rfl, -⟩ | ⟨-, -, hnew, -⟩
  · rfl
  · rfl
  · obtain ⟨-, rfl⟩ := newPeer_eq hnew
    rfl

theorem applyPeerSettings_state (ss : List (PeerSetting E)) (d : Device B E) (ipc : IpcSetPeer) :
    (d.applyPeerSettings ipc ss).1.state = d.state := by
  have hkept : PeerRel fun d d' : Device B E => d'.state = d.state :=
    ⟨⟨fun _ => rfl, fun h h' => h'.trans h, fun _ _ => rfl, fun _ _ => rfl⟩, fun _ _ => rfl,
      fun _ _ _ => rfl, fun _ _ => rfl, fun _ _ => rfl, fun _ _ _ => rfl⟩
  induction ss generalizing d ipc with
  | nil => rfl
  | cons s ss ih =>
    rw [applyPeerSettings, ih]
    rcases hs : d.applyPeerSetting ipc (ipc.peer.getD 0) s with ⟨d', ipc'⟩
    cases applyPeerSetting_change hs with
    | remove => exact hkept.removePeer d _
    | _ => rfl

/-- What a block does when it sends no keepalive, and the peer that it configures. -/
def block (env : Env B E) (d : Device B E) (b : PeerBlock E) : Option (Device B E × ℕ) := do
  let (d, ipc) ← d.selectPeer env b.pk false
  let (d, ipc) := d.applyPeerSettings ipc b.settings
  return (d.handlePostConfig { ipc with pkaOn := false }, ipc.peer.getD 0)

/-- The peer to which a block sends a keepalive, when `pkaOn` is as given before it. -/
def PeerBlock.sends (b : PeerBlock E) (d : Device B E) (pkaOn : Bool) : Bool :=
  d.isUp && !(b.pka d).dummy && (b.pka d).on.getD pkaOn

/-- **One block of a run**, from any keepalives sent before and any `pkaOn`. -/
theorem runBlocks_cons (shared pkaOn : Bool) (d : Device B E) (K : List ℕ) (b : PeerBlock E)
    (rest : List (PeerBlock E)) : runBlocks env shared pkaOn (d.withKeepalives K) (b :: rest) =
      (d.block env b).bind fun r => runBlocks env shared (shared && (b.pka d).on.getD pkaOn)
          (r.1.withKeepalives (K ++ if b.sends d pkaOn then [r.2] else [])) rest := by
  rw [runBlocks, selectPeer_withKeepalives, block]
  cases hselect : d.selectPeer env b.pk false with
  | none => rfl
  | some r =>
    obtain ⟨d₁, ipc⟩ := r
    have hon : (d.pkaStart b.pk).on = none := by
      unfold pkaStart
      split_ifs
      · rfl
      · cases d.lookupPeer b.pk <;> rfl
    -- `pkaOn` is inherited until a line of the block sets it
    have hstart : ({ ipc with pkaOn } : IpcSetPeer) =
        { ipc with pkaOn := (d.pkaStart b.pk).on.getD pkaOn } := by
      rw [hon, getD_none]
    obtain ⟨hrun, p, hp, -, hdummy, -⟩ :=
      applyPeerSettings_withKeepalives K pkaOn b.settings (tracks_selectPeer hselect)
    have hstate : (d₁.applyPeerSettings ipc b.settings).1.isUp = d.isUp := by
      rw [isUp, isUp, applyPeerSettings_state, selectPeer_state hselect]
    simp only [map_some, bind_eq_bind, bind_some]
    rw [hstart, hrun]
    dsimp only
    rw [handlePostConfig_withKeepalives _ _ _ hp, hstate, hdummy, hp]
    rfl

/-! ## §3 A block leaves the other keys alone -/

/-- What a change for the key `pk` keeps; `n` is the number of peers before the block. -/
structure Beside (pk : Bytes) (n : ℕ) (d d' : Device B E) : Prop where
  state : d'.state = d.state
  privateKey : d'.privateKey = d.privateKey
  publicKey : d'.publicKey = d.publicKey
  obfuscation : d'.obfuscation = d.obfuscation
  nextPeer : d.nextPeer ≤ d'.nextPeer
  lookup : ∀ k ≠ pk, d'.lookupPeer k = d.lookupPeer k
  remote : ∀ q < n, (d'.peer q).remoteStatic = (d.peer q).remoteStatic
  peer : ∀ q < n, (d.peer q).remoteStatic ≠ pk → d'.peer q = d.peer q

variable {pk : Bytes} {n : ℕ} {d d' d'' : Device B E}

theorem Beside.refl (pk : Bytes) (n : ℕ) (d : Device B E) : Beside pk n d d :=
  ⟨rfl, rfl, rfl, rfl, le_refl _, fun _ _ => rfl, fun _ _ => rfl, fun _ _ _ => rfl⟩

theorem Beside.trans (h : Beside pk n d d') (h' : Beside pk n d' d'') : Beside pk n d d'' where
  state := h'.state.trans h.state
  privateKey := h'.privateKey.trans h.privateKey
  publicKey := h'.publicKey.trans h.publicKey
  obfuscation := h'.obfuscation.trans h.obfuscation
  nextPeer := le_trans h.nextPeer h'.nextPeer
  lookup k hk := (h'.lookup k hk).trans (h.lookup k hk)
  remote q hq := (h'.remote q hq).trans (h.remote q hq)
  peer q hq hne := (h'.peer q hq (by rwa [h.remote q hq])).trans (h.peer q hq hne)

theorem remoteStatic_modifyPeer (d : Device B E) (p : ℕ) {f : Peer E → Peer E}
    (hf : ∀ peer, (f peer).remoteStatic = peer.remoteStatic) (q : ℕ) :
    ((d.modifyPeer p f).peer q).remoteStatic = (d.peer q).remoteStatic := by
  unfold modifyPeer
  dsimp only
  by_cases hq : q = p
  · rw [hq, Function.update_self, hf]
  · rw [Function.update_of_ne hq]

theorem Beside.modifyPeer (hp : n ≤ p ∨ (d.peer p).remoteStatic = pk) {f : Peer E → Peer E}
    (hf : ∀ peer, (f peer).remoteStatic = peer.remoteStatic) :
    Beside pk n d (d.modifyPeer p f) where
  state := rfl
  privateKey := rfl
  publicKey := rfl
  obfuscation := rfl
  nextPeer := le_refl _
  lookup _ _ := rfl
  remote q _ := remoteStatic_modifyPeer d p hf q
  peer q hq hne := by
    have hqp : q ≠ p := by
      rintro rfl
      exact hp.elim (Nat.not_le_of_lt hq) hne
    exact Function.update_of_ne hqp _ _

theorem Beside.allocPeer (hn : n ≤ d.nextPeer) (peer : Peer E) :
    Beside pk n d (d.allocPeer peer) := by
  have hpeer : ∀ q < n, (d.allocPeer peer).peer q = d.peer q := fun q hq =>
    Function.update_of_ne (Nat.ne_of_lt (Nat.lt_of_lt_of_le hq hn)) _ _
  exact ⟨rfl, rfl, rfl, rfl, le_succ _, fun _ _ => rfl, fun q hq => by rw [hpeer q hq],
    fun q hq _ => hpeer q hq⟩

theorem lookup_filter_ne {k : Bytes} (hk : k ≠ pk) (l : List (Bytes × ℕ)) :
    (l.filter fun entry => entry.1 ≠ pk).lookup k = l.lookup k := by
  induction l with
  | nil => rfl
  | cons entry l ih =>
    obtain ⟨key, p⟩ := entry
    by_cases hkey : key = pk
    · have hne : (k == key) = false := by
        rw [hkey]
        exact beq_false_of_ne hk
      rw [filter_cons_of_neg (by simpa using hkey), ih, lookup_cons, hne]
    · rw [filter_cons_of_pos (by simpa using hkey), lookup_cons, lookup_cons, ih]

theorem Beside.removePeer (h : Bookkept env d) (pk : Bytes) (n : ℕ) :
    Beside pk n d (d.removePeer pk) := by
  unfold Device.removePeer
  split
  · next p hp =>
    -- the peer of the key has the key
    have hkey : (d.peer p).remoteStatic = pk :=
      congrArg Prod.fst (h.stored pk p (mem_of_lookupPeer hp))
    have hstop : Beside pk n d (d.modifyPeer p fun peer => { peer with isRunning := false }) :=
      Beside.modifyPeer (Or.inr hkey) fun _ => rfl
    exact ⟨rfl, rfl, rfl, rfl, le_refl _, fun k hk => lookup_filter_ne hk d.keyMap, hstop.remote,
      hstop.peer⟩
  · exact Beside.refl pk n d

theorem Beside.newPeer (hn : n ≤ d.nextPeer) (hnew : d.newPeer env pk = .ok (d', p)) :
    Beside pk n d d' := by
  obtain ⟨-, rfl⟩ := newPeer_eq hnew
  have halloc : Beside pk n d (d.allocPeer { Peer.zero with
      precomputedStaticStatic := env.scalarMult d.privateKey pk, remoteStatic := pk }) :=
        Beside.allocPeer hn _
  refine ⟨rfl, rfl, rfl, rfl, halloc.nextPeer, fun k hk => ?_, halloc.remote, halloc.peer⟩
  have hlast : List.lookup k [(pk, d.nextPeer)] = none := by
    rw [lookup_cons, beq_false_of_ne hk]
    rfl
  show (d.keyMap ++ [(pk, d.nextPeer)]).lookup k = d.keyMap.lookup k
  rw [lookup_append, hlast, or_none]

/-- The peer that a block for the key `pk` configures. -/
structure Selected (env : Env B E) (pk : Bytes) (n : ℕ) (d : Device B E) (ipc : IpcSetPeer)
    (p : ℕ) : Prop where
  bookkept : Bookkept env d
  current : Current d ipc
  room : n ≤ d.nextPeer
  peer : ipc.peer = some p
  allocated : p < d.nextPeer
  own : n ≤ p ∨ (d.peer p).remoteStatic = pk
  remote : ipc.dummy = false → (d.peer p).remoteStatic = pk

theorem selected_selectPeer (h : Bookkept env d)
    (hselect : d.selectPeer env pk pkaOn = some (d', ipc)) :
    (∃ p, Selected env pk d.nextPeer d' ipc p) ∧ Beside pk d.nextPeer d d' := by
  rcases selectPeer_cases hselect with ⟨-, rfl, rfl⟩ | ⟨-, p, hp, rfl, rfl⟩ | ⟨hown, -, hnew, rfl⟩
  · refine ⟨⟨d.nextPeer, h.unbooked (Unbooked.allocPeer d Peer.zero), fun _ _ hdummy => ?_,
      le_succ _, rfl,
      lt_succ_self _, Or.inl (le_refl _), fun hdummy => ?_⟩, Beside.allocPeer (le_refl _) _⟩
    · cases hdummy
    · cases hdummy
  · have hmem := mem_of_lookupPeer hp
    have hkey : (d'.peer p).remoteStatic = pk := congrArg Prod.fst (h.stored pk p hmem)
    refine ⟨⟨p, h, fun q hq _ => ?_, le_refl _, rfl, h.allocated pk p hmem, Or.inr hkey,
      fun _ => hkey⟩, Beside.refl _ _ _⟩
    cases hq
    exact ⟨pk, hmem⟩
  · obtain ⟨h', hmem⟩ := h.newPeer hown hnew
    have hkey : (d'.peer d.nextPeer).remoteStatic = pk := congrArg Prod.fst (h'.stored pk _ hmem)
    have hbeside : Beside pk d.nextPeer d d' := Beside.newPeer (le_refl _) hnew
    refine ⟨⟨d.nextPeer, h', fun q hq _ => ?_, hbeside.nextPeer, rfl, h'.allocated pk _ hmem,
      Or.inr hkey, fun _ => hkey⟩, hbeside⟩
    cases hq
    exact ⟨pk, hmem⟩

theorem Selected.applyPeerSetting (h : Selected env pk n d ipc p) (s : PeerSetting E) :
    (∃ q, Selected env pk n (d.applyPeerSetting ipc p s).1 (d.applyPeerSetting ipc p s).2 q) ∧
      Beside pk n d (d.applyPeerSetting ipc p s).1 := by
  obtain ⟨hbookkept, hcurrent⟩ := h.bookkept.applyPeerSetting h.peer h.current s
  -- a dummy in place of the peer, which may have been removed
  have hdummy : ∀ d' : Device B E, Beside pk n d d' → Bookkept env (d'.dummyPeer ipc).1 →
      (∃ q, Selected env pk n (d'.dummyPeer ipc).1 (d'.dummyPeer ipc).2 q) ∧
        Beside pk n d (d'.dummyPeer ipc).1 := by
    intro d' hd' hbookkept
    have hroom : n ≤ d'.nextPeer := le_trans h.room hd'.nextPeer
    refine ⟨⟨d'.nextPeer, hbookkept, current_dummyPeer d' ipc, le_succ_of_le hroom, rfl,
      lt_succ_self _, Or.inl hroom, fun hfalse => ?_⟩, hd'.trans (Beside.allocPeer hroom _)⟩
    cases hfalse
  rcases hs : d.applyPeerSetting ipc p s with ⟨d', ipc'⟩
  rw [hs] at hbookkept hcurrent
  cases applyPeerSetting_change hs with
  | keep => exact ⟨⟨p, h⟩, Beside.refl pk n d⟩
  | modify f pkaOn hf =>
    have hf : ∀ peer, (f peer).remoteStatic = peer.remoteStatic := fun peer => by rw [hf peer]
    have hremote := remoteStatic_modifyPeer d p hf p
    refine ⟨⟨p, hbookkept, hcurrent, h.room, h.peer, h.allocated, ?_, fun hfalse => ?_⟩,
      Beside.modifyPeer h.own hf⟩
    · rw [hremote]
      exact h.own
    · rw [hremote]
      exact h.remote hfalse
  | routes =>
    exact ⟨⟨p, hbookkept, h.current, h.room, h.peer, h.allocated, h.own, h.remote⟩,
      rfl, rfl, rfl, rfl, le_refl _, fun _ _ => rfl, fun _ _ => rfl, fun _ _ _ => rfl⟩
  | dummy => exact hdummy d (Beside.refl pk n d) hbookkept
  | remove hfalse =>
    rw [h.remote hfalse] at hbookkept ⊢
    exact hdummy _ (Beside.removePeer h.bookkept pk n) hbookkept

theorem Selected.applyPeerSettings (ss : List (PeerSetting E)) (h : Selected env pk n d ipc p) :
    (∃ q, Selected env pk n (d.applyPeerSettings ipc ss).1 (d.applyPeerSettings ipc ss).2 q) ∧
      Beside pk n d (d.applyPeerSettings ipc ss).1 := by
  induction ss generalizing d ipc p with
  | nil => exact ⟨⟨p, h⟩, Beside.refl pk n d⟩
  | cons s ss ih =>
    obtain ⟨⟨q, hq⟩, hbeside⟩ := h.applyPeerSetting s
    rw [Device.applyPeerSettings, h.peer, getD_some]
    obtain ⟨hend, hrest⟩ := ih hq
    exact ⟨hend, hbeside.trans hrest⟩

theorem Selected.handlePostConfig (h : Selected env pk n d ipc p) :
    Beside pk n d (d.handlePostConfig ipc) ∧
      ((d.handlePostConfig ipc).peer p).remoteStatic = (d.peer p).remoteStatic := by
  -- everything is done to the peer, which keeps its key
  let R (d d' : Device B E) : Prop := (n ≤ p ∨ (d.peer p).remoteStatic = pk) →
    Beside pk n d d' ∧ (d'.peer p).remoteStatic = (d.peer p).remoteStatic
  have hkept : R d (d.handlePostConfig ipc) := by
    refine handlePostConfig_rel (R := R) (fun d _ => ⟨Beside.refl pk n d, rfl⟩) ?_ ?_ ?_ d
    · intro d d' d'' hd hd' hown
      obtain ⟨hbeside, hremote⟩ := hd hown
      obtain ⟨hbeside', hremote'⟩ := hd' (by rwa [hremote])
      exact ⟨hbeside.trans hbeside', hremote'.trans hremote⟩
    · intro d q f hq hf hown
      rw [h.peer] at hq
      cases hq
      have hf' : ∀ peer, (f peer).remoteStatic = peer.remoteStatic := fun peer => by rw [hf peer]
      exact ⟨Beside.modifyPeer hown hf', remoteStatic_modifyPeer d p hf' p⟩
    · exact fun d keepalives _ => ⟨{ Beside.refl pk n d with }, rfl⟩
  exact hkept h.own

/-- **What a block does.**  It keeps the books, leaves the other keys alone, and the peer to which
it may send a keepalive has its key. -/
theorem block_spec (h : Bookkept env d) {b : PeerBlock E} (hblock : d.block env b = some (d', p)) :
    Bookkept env d' ∧ Beside b.pk d.nextPeer d d' ∧
      ((b.pka d).dummy = false → p < d'.nextPeer ∧ (d'.peer p).remoteStatic = b.pk) := by
  obtain ⟨⟨d₁, ipc₁⟩, hselect, hrest⟩ := bind_eq_some_iff.mp hblock
  obtain ⟨⟨p₁, hselected₁⟩, hbeside₁⟩ := selected_selectPeer h hselect
  obtain ⟨⟨q, hselected⟩, hbeside₂⟩ := hselected₁.applyPeerSettings b.settings
  obtain ⟨-, -, -, -, hdummy, -⟩ :=
    applyPeerSettings_withKeepalives [] false b.settings (tracks_selectPeer hselect)
  dsimp only at hrest
  generalize d₁.applyPeerSettings ipc₁ b.settings = r at hrest hselected hbeside₂ hdummy
  obtain ⟨d₂, ipc₂⟩ := r
  dsimp only at hselected hbeside₂ hdummy
  cases hrest
  have hquiet : Selected env b.pk d.nextPeer d₂ { ipc₂ with pkaOn := false } q :=
    { hselected with }
  obtain ⟨hbeside₃, hremote⟩ := hquiet.handlePostConfig
  refine ⟨hselected.bookkept.unbooked (Unbooked.handlePostConfig _ _),
    (hbeside₁.trans hbeside₂).trans hbeside₃, fun hfalse => ?_⟩
  have hq : ipc₂.peer.getD 0 = q := by rw [hselected.peer, getD_some]
  dsimp only
  rw [hq]
  refine ⟨lt_of_lt_of_le hselected.allocated hbeside₃.nextPeer, ?_⟩
  rw [hremote]
  exact hselected.remote (hdummy.trans hfalse)

/-! ## §4 Runs -/

/-- The keepalives that a run of blocks sends. -/
def sent (env : Env B E) (shared : Bool) : Bool → Device B E → List (PeerBlock E) → List ℕ
  | _, _, [] => []
  | pkaOn, d, b :: rest =>
    match d.block env b with
    | none => []
    | some (d', p) =>
      (if b.sends d pkaOn then [p] else []) ++
        sent env shared (shared && (b.pka d).on.getD pkaOn) d' rest

/-- **A run of blocks** is that of the blocks without keepalives, with the keepalives sent. -/
theorem runBlocks_eq (shared : Bool) (blocks : List (PeerBlock E)) (pkaOn : Bool) (d : Device B E)
    (K : List ℕ) :
    runBlocks env shared pkaOn (d.withKeepalives K) blocks =
      (blocks.foldlM (fun (d : Device B E) b => (d.block env b).map Prod.fst) d).map fun d' =>
        d'.withKeepalives (K ++ sent env shared pkaOn d blocks) := by
  induction blocks generalizing pkaOn d K with
  | nil =>
    rw [sent, append_nil]
    rfl
  | cons b rest ih =>
    rw [runBlocks_cons, foldlM_cons, sent]
    cases d.block env b with
    | none => rfl
    | some r =>
      rw [bind_some, ih, append_assoc]
      rfl

theorem key_of_mem_sent {shared : Bool} {blocks : List (PeerBlock E)} (h : Bookkept env d)
    (hp : p < d.nextPeer) (hsent : p ∈ sent env shared pkaOn d blocks) :
    ∃ b ∈ blocks, (d.peer p).remoteStatic = b.pk := by
  induction blocks generalizing d pkaOn with
  | nil => cases hsent
  | cons b rest ih =>
    rw [sent] at hsent
    cases hblock : d.block env b with
    | none =>
      rw [hblock] at hsent
      cases hsent
    | some r =>
      obtain ⟨d', q⟩ := r
      obtain ⟨h', hbeside, hpeer⟩ := block_spec h hblock
      rw [hblock] at hsent
      -- a block sends to the peer that it configures, which is not a dummy
      rcases mem_append.mp hsent with hhead | htail
      · split_ifs at hhead with hsends
        · rw [mem_singleton.mp hhead] at hp ⊢
          have hdummy : (b.pka d).dummy = false := by
            simp only [PeerBlock.sends, Bool.and_eq_true, Bool.not_eq_true'] at hsends
            exact hsends.1.2
          refine ⟨b, mem_cons_self, ?_⟩
          rw [← hbeside.remote q hp]
          exact (hpeer hdummy).2
        · cases hhead
      · obtain ⟨b', hb', hkey⟩ := ih h' (lt_of_lt_of_le hp hbeside.nextPeer) htail
        refine ⟨b', mem_cons_of_mem b hb', ?_⟩
        rw [← hbeside.remote p hp]
        exact hkey

/-- A block for another key does not change what a block is about to do. -/
theorem pka_beside (h : Bookkept env d) (hbeside : Beside pk d.nextPeer d d') {b : PeerBlock E}
    (hb : b.pk ≠ pk) :
    b.pka d' = b.pka d := by
  have hstart : d'.pkaStart b.pk = d.pkaStart b.pk := by
    unfold pkaStart
    rw [hbeside.publicKey, hbeside.lookup b.pk hb]
    split_ifs
    · rfl
    · cases hlook : d.lookupPeer b.pk with
      | none => rfl
      | some p =>
        have hmem := mem_of_lookupPeer hlook
        have hkey : (d.peer p).remoteStatic = b.pk := congrArg Prod.fst (h.stored b.pk p hmem)
        dsimp only
        rw [hbeside.peer p (h.allocated b.pk p hmem) (by rwa [hkey])]
  rw [PeerBlock.pka, PeerBlock.pka, hstart]

/-- No block of the run inherits the keepalive of a block before: when the device is up and `pkaOn`
has come to be true, a block that ends with a peer has a line about the keepalive. -/
def NoInherited (d : Device B E) : Bool → List (PeerBlock E) → Prop
  | _, [] => True
  | pkaOn, b :: rest =>
    ¬(pkaOn = true ∧ d.isUp = true ∧ (b.pka d).dummy = false ∧ (b.pka d).on = none) ∧
      NoInherited d ((b.pka d).on.getD pkaOn) rest

instance decidableNoInherited (d : Device B E) :
    ∀ (pkaOn : Bool) (blocks : List (PeerBlock E)), Decidable (NoInherited d pkaOn blocks)
  | _, [] => isTrue trivial
  | pkaOn, b :: rest =>
    have := decidableNoInherited d ((b.pka d).on.getD pkaOn) rest
    inferInstanceAs (Decidable (¬(pkaOn = true ∧ d.isUp = true ∧ (b.pka d).dummy = false ∧
      (b.pka d).on = none) ∧ _))

theorem mem_ite_append_iff {α : Type} {a b : Bool} {x : α} {l l' : List α}
    (hx : a = true ∨ b = true → x ∉ l ∧ x ∉ l') :
    (∀ y, y ∈ (if a then [x] else []) ++ l ↔ y ∈ (if b then [x] else []) ++ l') ↔
      a = b ∧ ∀ y, y ∈ l ↔ y ∈ l' := by
  cases a <;> cases b
  · simp
  · obtain ⟨hl, -⟩ := hx (Or.inr rfl)
    refine iff_of_false (fun h => ?_) (by simp)
    have hmem := (h x).mpr (by simp)
    simp [hl] at hmem
  · obtain ⟨-, hl'⟩ := hx (Or.inl rfl)
    refine iff_of_false (fun h => ?_) (by simp)
    have hmem := (h x).mp (by simp)
    simp [hl'] at hmem
  · obtain ⟨hl, hl'⟩ := hx (Or.inl rfl)
    simp only [if_true, cons_append, nil_append, mem_cons, true_and]
    refine ⟨fun h y => ?_, fun h y => by rw [h y]⟩
    by_cases hy : y = x
    · rw [hy]
      exact iff_of_false hl hl'
    · simpa [hy] using h y

/-- **The keepalives of a shared run** are those of the separate blocks if and only if none is
inherited. -/
theorem sent_shared_iff {d₀ : Device B E} {blocks : List (PeerBlock E)} (h : Bookkept env d)
    (hup : d.isUp = d₀.isUp) (hpka : ∀ b ∈ blocks, b.pka d = b.pka d₀)
    (hkeys : blocks.Pairwise fun b b' => b.pk ≠ b'.pk)
    (hrun : (blocks.foldlM (fun (d : Device B E) b => (d.block env b).map Prod.fst) d).isSome)
    (pkaOn : Bool) :
    (∀ p, p ∈ sent env true pkaOn d blocks ↔ p ∈ sent env false false d blocks) ↔
      NoInherited d₀ pkaOn blocks := by
  induction blocks generalizing d pkaOn with
  | nil => exact iff_of_true (fun _ => Iff.rfl) trivial
  | cons b rest ih =>
    obtain ⟨hpkaHead, hpkaRest⟩ := forall_mem_cons.mp hpka
    obtain ⟨hkeysHead, hkeysRest⟩ := pairwise_cons.mp hkeys
    rw [sent, sent]
    cases hblock : d.block env b with
    | none =>
      rw [foldlM_cons, hblock] at hrun
      cases hrun
    | some r =>
      obtain ⟨d', p⟩ := r
      obtain ⟨h', hbeside, hpeer⟩ := block_spec h hblock
      rw [foldlM_cons, hblock] at hrun
      -- the peer of this block gets no keepalive from a later one
      have hfresh : ∀ shared x, (b.pka d).dummy = false → p ∉ sent env shared x d' rest := by
        intro shared x hdummy hmem
        obtain ⟨hlt, hremote⟩ := hpeer hdummy
        obtain ⟨b', hb', hkey⟩ := key_of_mem_sent h' hlt hmem
        exact hkeysHead b' hb' (hremote.symm.trans hkey)
      have hrest := ih h' (by rw [← hup, isUp, isUp, hbeside.state])
        (fun b' hb' => by rw [pka_beside h hbeside (hkeysHead b' hb').symm, hpkaRest b' hb'])
          hkeysRest hrun
        ((b.pka d).on.getD pkaOn)
      dsimp only
      rw [Bool.true_and, Bool.false_and, mem_ite_append_iff, hrest, NoInherited, ← hpkaHead, ← hup]
      · refine and_congr_left fun _ => ?_
        -- the block sends in both runs or in neither, unless it inherits
        simp only [PeerBlock.sends]
        cases d.isUp <;> cases (b.pka d).dummy <;> rcases (b.pka d).on with _ | on <;> cases pkaOn
          <;> simp
      · rintro hsends
        have hdummy : (b.pka d).dummy = false := by
          simp only [PeerBlock.sends, Bool.and_eq_true, Bool.not_eq_true'] at hsends
          exact hsends.elim (fun hs => hs.1.2) fun hs => hs.1.2
        exact ⟨hfresh _ _ hdummy, hfresh _ _ hdummy⟩

/-! ## §5 One request and several -/

/-- The devices that a program can come to: requests change them, and whatever leaves the books
alone, as `Up` and `Down` do. -/
inductive Reachable (env : Env B E) : Device B E → Prop
  | new (bind : B) : Reachable env (newDevice bind)
  | set {d : Device B E} (h : Reachable env d) (uapiConf : Bytes) :
      Reachable env (d.ipcSet env uapiConf).1
  | other {d d' : Device B E} (h : Reachable env d) (hd : Unbooked d d') : Reachable env d'

theorem Reachable.bookkept (h : Reachable env d) : Bookkept env d := by
  induction h with
  | new bind => exact bookkept_newDevice env bind
  | set h uapiConf ih => exact ih.ipcSet uapiConf
  | other h hd ih => exact ih.unbooked hd

/-- The peers that were sent a keepalive since `d`. -/
def newKeepalives (d d' : Device B E) : List ℕ := d'.keepalives.drop d.keepalives.length

def AllAccepted (env : Env B E) : Device B E → List Bytes → Prop
  | _, [] => True
  | d, uapiConf :: requests =>
    (d.ipcSet env uapiConf).2 = none ∧ AllAccepted env (d.ipcSet env uapiConf).1 requests

theorem applySettings_keepalives {ss : List Setting} (h : d.applySettings env ss = some d') :
    d'.keepalives = d.keepalives := by
  have hkept : PeerRel fun d d' : Device B E => d'.keepalives = d.keepalives :=
    ⟨⟨fun _ => rfl, fun h h' => h'.trans h, fun _ _ => rfl, fun _ _ => rfl⟩, fun _ _ => rfl,
      fun _ _ _ => rfl, fun _ _ => rfl, fun _ _ => rfl, fun _ _ _ => rfl⟩
  have hone : ∀ (d : Device B E) s, (d.applySetting env s).1.keepalives = d.keepalives := by
    intro d s
    cases s
    case privateKey sk => exact hkept.setPrivateKey env d sk
    case listenPort port => exact hkept.bindUpdate env _
    case fwmark mark => exact hkept.bindSetMark env d mark
    case replacePeers => exact hkept.removeAllPeers d
    case jc | jmin | jmax | padding | imitateProtocol | header | ipacket => rfl
  exact applySettings_rule (fun x => x.keepalives = d.keepalives)
    (fun s _ x hx => (hone x s).trans hx) h rfl

theorem afterRequests_blocks {blocks : List (Block × Bytes)} {parsed : List (PeerBlock E)}
    (hkey : ∀ b ∈ blocks, ∀ line ∈ b.1.lines, ¬IsKeyLine line)
    (htexts : ∀ b ∈ blocks, IsRequest b.2 b.1.toLines)
    (hparsed : (blocks.map Prod.fst).mapM (Block.parse env) = some parsed)
    (hheaders : d.headers.Disjoint) (hrun : runBlocks env false false d parsed = some d') :
    AllAccepted env d (blocks.map Prod.snd) ∧ afterRequests env d (blocks.map Prod.snd) = d' := by
  induction blocks generalizing d parsed with
  | nil =>
    cases hparsed
    cases hrun
    exact ⟨trivial, rfl⟩
  | cons b blocks ih =>
    obtain ⟨hkeyHead, hkeyRest⟩ := forall_mem_cons.mp hkey
    obtain ⟨htextHead, htextRest⟩ := forall_mem_cons.mp htexts
    obtain ⟨pb, pbs, hpb, hpbs, rfl⟩ := exists_of_mapM_cons hparsed
    rw [runBlocks_separate] at hrun
    obtain ⟨d₁, hfirst, hrest⟩ := bind_eq_some_iff.mp hrun
    have hset : d.ipcSet env b.2 = (d₁, none) := ipcSet_block hkeyHead hpb htextHead hfirst hheaders
    rw [← headers_of_obfuscation (runBlocks_obfuscation hfirst)] at hheaders
    obtain ⟨haccepted, hafter⟩ := ih hkeyRest htextRest hpbs hheaders hrest
    refine ⟨⟨congrArg Prod.snd hset, ?_⟩, ?_⟩
    · rw [hset]
      exact haccepted
    · rw [map_cons, afterRequests, foldl_cons, hset]
      exact hafter

theorem pairwise_parse {blocks : List Block} {parsed : List (PeerBlock E)}
    (hparsed : blocks.mapM (Block.parse env) = some parsed)
    (hkeys : blocks.Pairwise fun b b' => loadExactHex b.value ≠ loadExactHex b'.value) :
    parsed.Pairwise fun b b' => b.pk ≠ b'.pk := by
  rw [← filterMap_of_mapM hparsed, pairwise_filterMap]
  refine hkeys.imp fun {b b'} hne pb hpb pb' hpb' hpk => hne ?_
  -- a block that was parsed has a key
  have hload : ∀ {b : Block} {pb : PeerBlock E}, b.parse env = some pb →
      loadExactHex b.value = .ok pb.pk := by
    intro b pb hpb
    obtain ⟨pk, hpk, hpb⟩ := bind_eq_some_iff.mp hpb
    obtain ⟨ss, -, hpb⟩ := bind_eq_some_iff.mp hpb
    cases hpb
    cases hload : loadExactHex b.value with
    | error err => rw [hload] at hpk; cases hpk
    | ok pk' => rw [hload] at hpk; cases hpk; rfl
  rw [hload hpb, hload hpb', hpk]

/-- **Peers of one request are independent if and only if no keepalive is inherited.**  A request of
device lines and blocks with different keys, when it is accepted, does what the device lines and the
blocks do as requests of their own, which are accepted too: the devices are the same but for the
keepalives, and the same peers get one, exactly when no block, seen from the device after the device
lines, inherits the keepalive of a block before. -/
theorem blocks_independent_iff (hd : Reachable env d) (D : List Bytes)
    (blocks : List (Block × Bytes))
    (whole first : Bytes)
    (hwhole : IsRequest whole (D ++ (blocks.map Prod.fst).flatMap Block.toLines))
    (hfirst : IsRequest first D) (htexts : ∀ b ∈ blocks, IsRequest b.2 b.1.toLines)
    (hD : ∀ line ∈ D, ¬IsKeyLine line) (hkey : ∀ b ∈ blocks, ∀ line ∈ b.1.lines, ¬IsKeyLine line)
    (hkeys : (blocks.map Prod.fst).Pairwise fun b b' => loadExactHex b.value ≠
      loadExactHex b'.value)
    (haccepted : (d.ipcSet env whole).2 = none) :
    let apart := first :: blocks.map Prod.snd
    (AllAccepted env d apart ∧
      (d.ipcSet env whole).1.withKeepalives [] = (afterRequests env d apart).withKeepalives [] ∧
      ∀ p, p ∈ newKeepalives d (d.ipcSet env whole).1 ↔
        p ∈ newKeepalives d (afterRequests env d apart)) ↔
    NoInherited (d.ipcSet env first).1 false
      ((blocks.map Prod.fst).filterMap (Block.parse env)) := by
  intro apart
  have hne := hwhole.ne_nil
  have hneLines : ∀ b ∈ blocks.map Prod.fst, ∀ line ∈ b.lines, line ≠ [] := fun b hb line hline =>
    hne line (mem_append_right _ (mem_flatMap_of_mem hb (mem_cons_of_mem _ hline)))
  have hkeyLines : ∀ b ∈ blocks.map Prod.fst, ∀ line ∈ b.lines, ¬IsKeyLine line := by
    intro b hb
    obtain ⟨bt, hbt, rfl⟩ := mem_map.mp hb
    exact hkey bt hbt
  -- the request, part by part
  rw [ipcSet_of_isRequest hwhole] at haccepted ⊢
  obtain ⟨ss, d₁, -, happly, hdevice⟩ :=
    ipcSetLines_deviceLines (fun line hline => hne line (mem_append_left _ hline)) hD haccepted
  rw [hdevice] at haccepted ⊢
  rcases hrun : ipcSetLines env false ((blocks.map Prod.fst).flatMap Block.toLines)
    true d₁ IpcSetPeer.new with
    ⟨d₂, err⟩
  rw [hrun] at haccepted
  dsimp only at haccepted ⊢
  subst haccepted
  obtain ⟨parsed, hparsed, hshared⟩ := ipcSetLines_blocks hneLines hkeyLines hrun
  change runBlocks env true false d₁ parsed = some d₂ at hshared
  have hheaders : d₁.headers.Disjoint := by
    have hend := (ipcSetLines_disjoint _ _).2 (congrArg Prod.snd hrun)
    rw [hrun] at hend
    rwa [headers_of_obfuscation (runBlocks_obfuscation hshared)] at hend
  -- the device lines alone
  have hset : d.ipcSet env first = (d₁, none) := by
    have hnil := hdevice false []
    rw [append_nil] at hnil
    rw [ipcSet_of_isRequest hfirst, hnil, ipcSetLines_nil, finishSet, mergeWithDevice_new,
      (Headers.anyOverlap_eq_false_iff _).mpr hheaders]
    rfl
  have hbookkept := hd.bookkept.ipcSet first
  rw [hset] at hbookkept
  -- the blocks, in one run and in runs of their own
  rw [← withKeepalives_self d₁, runBlocks_eq] at hshared
  obtain ⟨quiet, hquiet, rfl⟩ := map_eq_some_iff.mp hshared
  have hapart : runBlocks env false false d₁ parsed =
      some (quiet.withKeepalives (d₁.keepalives ++ sent env false false d₁ parsed)) := by
    nth_rewrite 1 [← withKeepalives_self d₁]
    rw [runBlocks_eq, hquiet]
    rfl
  obtain ⟨hall, hafter⟩ := afterRequests_blocks hkey htexts hparsed hheaders hapart
  have hafter' : afterRequests env d apart =
      quiet.withKeepalives (d₁.keepalives ++ sent env false false d₁ parsed) := by
    rw [← hafter, afterRequests, foldl_cons, hset]
    rfl
  have hnew : ∀ l, newKeepalives d (quiet.withKeepalives (d₁.keepalives ++ l)) = l := by
    intro l
    rw [newKeepalives, ← applySettings_keepalives happly]
    exact drop_left
  have hsent := sent_shared_iff hbookkept rfl (fun _ _ => rfl) (pairwise_parse hparsed hkeys)
    (isSome_of_mem hquiet) false
  rw [hafter', hnew, hnew, filterMap_of_mapM hparsed, hset]
  refine ⟨fun h => hsent.mp h.2.2, fun h => ⟨⟨congrArg Prod.snd hset, ?_⟩, rfl, hsent.mpr h⟩⟩
  rw [hset]
  exact hall

/-- A device that is up, with two blocks: the first sets a keepalive, the second may. -/
def upDevice : Device Unit Unit := { newDevice () with state := .up }

theorem reachable_upDevice : Reachable quietEnv upDevice :=
  (Reachable.new ()).other ⟨rfl, rfl, rfl, rfl, le_refl _, fun _ _ => rfl⟩

def twoBlocks (second : List Bytes) : List Block :=
  [{ value := List.replicate 64 (asciiByte '1')
     lines := [uapiLine "persistent_keepalive_interval" (ascii "25")] },
    { value := List.replicate 64 (asciiByte '2'), lines := second }]

/-- With an interval of its own the second block inherits nothing. -/
theorem blocks_independent_two :
    let blocks := (twoBlocks [uapiLine "persistent_keepalive_interval" (ascii "0")]).map fun b =>
      (b, unlines b.toLines)
    let whole := unlines ((blocks.map Prod.fst).flatMap Block.toLines)
    ∀ p, p ∈ newKeepalives upDevice (upDevice.ipcSet quietEnv whole).1 ↔
      p ∈ newKeepalives upDevice (afterRequests quietEnv upDevice ([] :: blocks.map Prod.snd)) := by
  intro blocks whole
  refine ((blocks_independent_iff reachable_upDevice [] blocks whole []
    (by decide +kernel) (by decide +kernel) (by decide +kernel) (by decide +kernel)
      (by decide +kernel)
    (by decide +kernel) (by decide +kernel)).mpr ?_).2.2
  decide +kernel

/-- Without one it sends the keepalive that the first block turned on. -/
theorem keepalive_inherited :
    let blocks := (twoBlocks []).map fun b => (b, unlines b.toLines)
    let whole := unlines ((blocks.map Prod.fst).flatMap Block.toLines)
    Reachable quietEnv upDevice ∧ IsRequest whole ((blocks.map Prod.fst).flatMap Block.toLines) ∧
      (∀ b ∈ blocks, IsRequest b.2 b.1.toLines) ∧
      (∀ b ∈ blocks, ∀ line ∈ b.1.lines, ¬IsKeyLine line) ∧
      ((blocks.map Prod.fst).Pairwise fun b b' => loadExactHex b.value ≠ loadExactHex b'.value) ∧
      (upDevice.ipcSet quietEnv whole).2 = none ∧
      newKeepalives upDevice (upDevice.ipcSet quietEnv whole).1 = [0, 1] ∧
      newKeepalives upDevice (afterRequests quietEnv upDevice ([] :: blocks.map Prod.snd)) = [0] :=
  ⟨reachable_upDevice, by decide +kernel, by decide +kernel, by decide +kernel, by decide +kernel,
    by decide +kernel, by decide +kernel, by decide +kernel⟩

end Device

end AmneziaWG.Device
