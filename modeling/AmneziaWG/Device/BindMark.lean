import AmneziaWG.Device.Core
import AmneziaWG.Lib.Transition

/-!
# The Mark of the Socket

`BindSetMark` and `BindUpdate` (`device/device.go`) on a bind whose calls may fail.  The device
remembers the mark that was asked for before it asks the bind for it, and returns early when the
mark that it remembers is asked for again.

When `SetMark` fails, the device remembers a mark that the socket does not have, and the next call
with this mark returns no error without asking the bind.  When it fails in `BindUpdate`, the new
socket stays open and no routine receives from it.

## Main results

- `markStep_inv`: on an open socket whose last `SetMark` did not fail, the remembered mark is the
  mark of the socket.
- `setMark_in_effect`: a call that returns no error leaves the open socket with the mark, when no
  mark is repeated after `SetMark` has failed.
- `repeated_mark_is_skipped`: a failed call, and the same call again.
- `bindUpdate_notDeaf_iff`: `BindUpdate` leaves an open socket without receivers exactly when
  `SetMark` fails.
-/

namespace AmneziaWG.Device

open AmneziaWG.Lib Option Device

variable {E : Type}

/-! ## §1 A bind whose calls may fail -/

/-- A bind, as far as marks are concerned. -/
structure MarkedBind where
  isOpen : Bool
  mark : BitVec 32
  deriving DecidableEq, Repr

/-- How the calls on the bind and the route listener end during one operation of the device. -/
structure Outcomes where
  close : Bool
  /-- The number of receive functions and the port, when `Open` succeeds. -/
  opened : Option (ℕ × BitVec 16)
  listener : Bool
  setMark : Bool

/-- The bind with given outcomes.  A socket that was just opened has the mark zero; `Close` closes
it also when it returns an error; a failed `SetMark` leaves the mark as it was. -/
def markEnv (E : Type) (o : Outcomes) : Env MarkedBind E :=
  { bindClose := fun bind => ({ bind with isOpen := false }, o.close)
    bindOpen := fun _ _ => ({ isOpen := o.opened.isSome, mark := 0 }, o.opened)
    bindSetMark := fun bind mark => if o.setMark then ({ bind with mark }, true) else (bind, false)
    startRouteListener := fun bind => (bind, o.listener)
    parseEndpoint := fun _ => none
    parsePrefix := fun _ => none
    scalarBaseMult := id
    scalarMult := fun _ => id }

/-! ## §2 Sequences of calls -/

/-- A device between two calls.  `unmarked` says that the last `SetMark` on the bind failed, and
`returned` is the mark of the last call if it was a `BindSetMark` that returned no error. -/
structure MarkState (E : Type) where
  device : Device MarkedBind E
  unmarked : Bool
  returned : Option (BitVec 32)

/-- A call, with the outcomes of what it calls. -/
inductive MarkCall where
  | bindSetMark (mark : BitVec 32) (o : Outcomes)
  | bindUpdate (o : Outcomes)

/-- `BindUpdate` gets as far as `SetMark`. -/
def reachesSetMark (d : Device MarkedBind E) (o : Outcomes) : Bool :=
  o.close && o.opened.isSome && o.listener && (d.net.fwmark ≠ 0)

def markStep (s : MarkState E) : MarkCall → Option (MarkState E)
  | .bindSetMark mark o =>
    let (device, ok) := s.device.bindSetMark (markEnv E o) mark
    some
      { device
        unmarked := if s.device.net.fwmark = mark then s.unmarked else !o.setMark
        returned := if ok then some mark else none }
  | .bindUpdate o =>
    some
      { device := (s.device.bindUpdate (markEnv E o)).1
        unmarked := reachesSetMark s.device o && !o.setMark
        returned := none }

/-- A device that was just set to up: the bind is not open yet. -/
structure MarkState.Start (s : MarkState E) : Prop where
  up : s.device.state = .up
  closed : s.device.net.bind.isOpen = false
  returned : s.returned = none

/-- The last call was not a `BindSetMark` that returned no error, or the bind is not open, or its
mark is the one that was asked for. -/
def MarkState.InEffect (s : MarkState E) : Prop :=
  ∀ mark, s.returned = some mark → s.device.net.bind.isOpen = true → s.device.net.bind.mark = mark

/-- The mark that could not be set on the open socket is not asked for again. -/
def NotRepeated (s : MarkState E) : MarkCall → Prop
  | .bindSetMark mark _ =>
    ¬(s.device.net.bind.isOpen = true ∧ s.unmarked = true ∧ s.device.net.fwmark = mark)
  | .bindUpdate _ => True

instance (s : MarkState E) (call : MarkCall) : Decidable (NotRepeated s call) :=
  match call with
  | .bindSetMark _ _ => inferInstanceAs (Decidable (¬(_ ∧ _ ∧ _)))
  | .bindUpdate _ => isTrue trivial

/-! ## §3 The remembered mark -/

/-- The device is up, and an open socket has the remembered mark unless `SetMark` failed. -/
structure MarkState.Inv (s : MarkState E) : Prop where
  up : s.device.state = .up
  marked : s.device.net.bind.isOpen = true → s.unmarked = false →
    s.device.net.bind.mark = s.device.net.fwmark

theorem markEndpointSrcs_net_state {B : Type} (d : Device B E) :
    d.markEndpointSrcs.net = d.net ∧ d.markEndpointSrcs.state = d.state := by
  unfold markEndpointSrcs
  generalize d.keyMap = peers
  induction peers generalizing d with
  | nil => exact ⟨rfl, rfl⟩
  | cons entry peers ih =>
    rw [List.foldl_cons]
    exact ih _

theorem bindSetMark_new {d : Device MarkedBind E} (hup : d.state = .up) {mark : BitVec 32}
    (hnew : d.net.fwmark ≠ mark) (o : Outcomes) : (d.bindSetMark (markEnv E o) mark).1.state = .up ∧
      (d.bindSetMark (markEnv E o) mark).1.net.fwmark = mark ∧
      (d.bindSetMark (markEnv E o) mark).1.net.bind.isOpen = d.net.bind.isOpen ∧
      (d.bindSetMark (markEnv E o) mark).2 = o.setMark ∧
      (o.setMark = true → (d.bindSetMark (markEnv E o) mark).1.net.bind.mark = mark) := by
  have hisUp : isUp { d with net := { d.net with fwmark := mark } } = true := by
    simp [isUp, hup]
  unfold bindSetMark
  rw [if_neg hnew]
  dsimp only
  rw [if_pos hisUp]
  cases hok : o.setMark with
  | false => simp [markEnv, hok, hup]
  | true =>
    simp only [markEnv, hok, if_true]
    have hkept := markEndpointSrcs_net_state
      { d with net := { d.net with fwmark := mark, bind := { d.net.bind with mark } } }
    rw [hkept.1, hkept.2]
    exact ⟨hup, rfl, rfl, trivial, fun _ => rfl⟩

/-- After `BindUpdate` the bind is closed, or it is a new socket that has the remembered mark
unless `SetMark` failed. -/
theorem bindUpdate_mark {d : Device MarkedBind E} (hup : d.state = .up) (o : Outcomes) :
    (d.bindUpdate (markEnv E o)).1.state = .up ∧
      ((d.bindUpdate (markEnv E o)).1.net.bind.isOpen = true →
        (reachesSetMark d o && !o.setMark) = false → (d.bindUpdate (markEnv E o)).1.net.bind.mark =
          (d.bindUpdate (markEnv E o)).1.net.fwmark) := by
  obtain ⟨close, opened, listener, setMark⟩ := o
  have hisUp : ∀ net : Net MarkedBind, isUp { d with net } = true :=
    fun net => by simp [isUp, hup]
  unfold bindUpdate closeBindLocked
  -- one case for every place where the function can return
  cases close with
  | false => simp [markEnv, hup]
  | true =>
    simp only [markEnv, hisUp, Bool.not_true, Bool.false_eq_true, if_false]
    cases opened with
    | none => simp [hup]
    | some result =>
      cases listener with
      | false => simp [hup]
      | true =>
        dsimp only
        by_cases hzero : d.net.fwmark = 0#32
        · simp [hzero, hup, markEndpointSrcs_net_state]
        · cases setMark with
          | false => simp [hup, reachesSetMark, hzero]
          | true => simp [hzero, hup, markEndpointSrcs_net_state]

/-- Every call that does not repeat a mark keeps the invariant, and its answer is in effect. -/
theorem markStep_inv {s t : MarkState E} (h : s.Inv) {call : MarkCall} (hcall : NotRepeated s call)
    (hstep : markStep s call = some t) : t.Inv ∧ t.InEffect := by
  cases call with
  | bindSetMark mark o =>
    by_cases hsame : s.device.net.fwmark = mark
    · -- the early return: nothing has changed, and the socket has the mark
      have hearly : s.device.bindSetMark (markEnv E o) mark = (s.device, true) := by
        unfold bindSetMark
        rw [if_pos hsame]
      simp only [markStep, hearly, if_pos hsame, if_true, some.injEq] at hstep
      subst hstep
      refine ⟨⟨h.up, h.marked⟩, fun asked hasked hopen => ?_⟩
      have hmarked : s.unmarked = false := by
        by_contra hfailed
        exact hcall ⟨hopen, by simpa using hfailed, hsame⟩
      cases hasked
      exact (h.marked hopen hmarked).trans hsame
    · obtain ⟨hup, hfwmark, hopen, hok, hmark⟩ := bindSetMark_new h.up hsame o
      simp only [markStep, if_neg hsame, some.injEq] at hstep
      subst hstep
      refine ⟨⟨hup, fun _ hset => ?_⟩, fun asked hasked _ => ?_⟩
      · dsimp only at hset ⊢
        rw [hmark (by simpa using hset), hfwmark]
      · dsimp only at hasked ⊢
        rw [hok] at hasked
        split_ifs at hasked with hset
        cases hasked
        exact hmark hset
  -- a new socket is marked with what is remembered, and nothing was asked for
  | bindUpdate o =>
    obtain ⟨hup, hmark⟩ := bindUpdate_mark h.up o
    simp only [markStep, some.injEq] at hstep
    subst hstep
    exact ⟨⟨hup, hmark⟩, fun asked hasked => by cases hasked⟩

/-! ## §4 Runs -/

theorem MarkState.Start.inv {s : MarkState E} (h : s.Start) : s.Inv ∧ s.InEffect := by
  refine ⟨⟨h.up, fun hopen => ?_⟩, fun mark hreturned => ?_⟩
  · rw [h.closed] at hopen
    cases hopen
  · rw [h.returned] at hreturned
    cases hreturned

/-- In every sequence of calls in which a mark that could not be set on the open socket is not
asked for again, every `BindSetMark` that returns no error is in effect. -/
theorem setMark_in_effect {s₀ s : MarkState E} {calls : List MarkCall} (hstart : s₀.Start)
    (hcond : Along markStep NotRepeated s₀ calls) (hrun : runFrom markStep s₀ calls = some s) :
    s.InEffect :=
  (runFrom_invariant_along (fun _ _ _ h hcall hstep => markStep_inv h.1 hcall hstep)
    hstart.inv hcond hrun).2

def allSucceed : Outcomes :=
  { close := true, opened := some (1, 51820), listener := true, setMark := true }

/-- A device that was set to up, before its first `BindUpdate`. -/
def justUp : MarkState Unit :=
  { device := {
    (newDevice { isOpen := false, mark := 0 } : Device MarkedBind Unit) with state := .up }
    unmarked := false
    returned := none }

/-- A failed call, another mark, and the first mark again. -/
def retriedLater : List MarkCall :=
  [.bindUpdate allSucceed, .bindSetMark 7 { allSucceed with setMark := false },
    .bindSetMark 8 allSucceed, .bindSetMark 7 allSucceed]

theorem setMark_in_effect_later :
    ∃ s, runFrom markStep justUp retriedLater = some s ∧ s.returned = some 7 ∧
      s.device.net.bind.mark = 7 := by
  have hcond : Along markStep NotRepeated justUp retriedLater := by decide +kernel
  have hrun : (runFrom markStep justUp retriedLater).map
      (fun s => (s.returned, s.device.net.bind.isOpen)) = some (some 7, true) := by decide +kernel
  obtain ⟨s, hs, hvalues⟩ := map_eq_some_iff.mp hrun
  obtain ⟨hreturned, hopen⟩ := Prod.mk.inj hvalues
  exact ⟨s, hs, hreturned, setMark_in_effect ⟨rfl, rfl, rfl⟩ hcond hs 7 hreturned hopen⟩

def retriedAtOnce : List MarkCall :=
  [.bindUpdate allSucceed, .bindSetMark 7 { allSucceed with setMark := false },
    .bindSetMark 7 allSucceed]

/-- The second call returns no error although the socket still has the mark zero. -/
theorem repeated_mark_is_skipped :
    ∃ s, justUp.Start ∧ runFrom markStep justUp retriedAtOnce = some s ∧ s.returned = some 7 ∧
      s.device.net.bind = { isOpen := true, mark := 0 } ∧ ¬s.InEffect := by
  have hrun : (runFrom markStep justUp retriedAtOnce).map
      (fun s => (s.returned, s.device.net.bind)) =
        some (some 7, { isOpen := true, mark := 0 }) := by
    decide +kernel
  obtain ⟨s, hs, hvalues⟩ := map_eq_some_iff.mp hrun
  obtain ⟨hreturned, hbind⟩ := Prod.mk.inj hvalues
  refine ⟨s, ⟨rfl, rfl, rfl⟩, hs, hreturned, hbind, fun heffect => ?_⟩
  have hmark := heffect 7 hreturned (by rw [hbind])
  rw [hbind] at hmark
  exact absurd hmark (by decide)

/-! ## §5 Open sockets and receivers -/

/-- What `BindUpdate` should leave behind: when it succeeds on a device that is up, an open socket
with a routine for every receive function, and when it fails after `Open`, a closed socket. -/
structure NotDeaf (d : Device MarkedBind E) (o : Outcomes) : Prop where
  receives : (d.bindUpdate (markEnv E o)).2 = true → d.isUp = true →
    (d.bindUpdate (markEnv E o)).1.net.bind.isOpen = true ∧
      o.opened.map Prod.fst = some (d.bindUpdate (markEnv E o)).1.net.receivers
  closed : (d.bindUpdate (markEnv E o)).2 = false → o.close = true → d.isUp = true →
    o.opened.isSome = true → (d.bindUpdate (markEnv E o)).1.net.bind.isOpen = false

/-- `BindUpdate` cleans up after every failure but that of `SetMark`. -/
theorem bindUpdate_notDeaf_iff (d : Device MarkedBind E) (o : Outcomes) :
    NotDeaf d o ↔ (d.isUp = true → reachesSetMark d o = true → o.setMark = true) := by
  obtain ⟨close, opened, listener, setMark⟩ := o
  have hisUp : ∀ net : Net MarkedBind, isUp { d with net } = d.isUp := fun net => rfl
  rw [show NotDeaf d _ ↔ _ ∧ _ from ⟨fun h => ⟨h.receives, h.closed⟩, fun h => ⟨h.1, h.2⟩⟩]
  unfold bindUpdate closeBindLocked
  cases close with
  | false => simp [markEnv, reachesSetMark]
  | true =>
    cases hup : d.isUp with
    | false => simp [markEnv, hisUp, hup]
    | true =>
      simp only [markEnv, hisUp, hup, Bool.not_true, Bool.false_eq_true, if_false]
      cases opened with
      | none => simp [reachesSetMark]
      | some result =>
        cases listener with
        | false => simp [reachesSetMark]
        | true =>
          dsimp only
          by_cases hzero : d.net.fwmark = 0#32
          · simp [hzero, reachesSetMark, markEndpointSrcs_net_state]
          · cases setMark <;> simp [hzero, reachesSetMark, markEndpointSrcs_net_state]

/-- The mark cannot be set on the new socket: it stays open and holds the port, and nothing
receives. -/
theorem bindUpdate_leaves_deaf :
    let d := (justUp.device.bindSetMark (markEnv Unit allSucceed) 7).1
    let o := { allSucceed with setMark := false }
    let updated := d.bindUpdate (markEnv Unit o)
    ¬NotDeaf d o ∧ updated.2 = false ∧ updated.1.net.bind.isOpen = true ∧
      updated.1.net.port = 51820 ∧ updated.1.net.receivers = 0 := by
  dsimp only
  refine ⟨fun h => ?_, by decide +kernel, by decide +kernel, by decide +kernel, by decide +kernel⟩
  exact absurd (h.closed (by decide +kernel) rfl (by decide +kernel) rfl) (by decide +kernel)

end AmneziaWG.Device
