import AmneziaWG.Lib.Ledger
import Mathlib.Algebra.Order.Group.Multiset
import Mathlib.Tactic.Abel

/-!
# Pools of Outbound Elements

The pools of `device/pools.go` as the outbound path uses them: containers, elements and message
buffers, each from a `WaitPool` that counts the `Get` calls not yet `Put` back and, with a `max`
other than zero, lets `Get` wait while that many are out.  A ledger beside the pools records what
one TUN reader and one peer obtained and put back; the pools serve the other peers too, and how
many objects those hold is counted apart.

## Main results

- `Pools.Accounts.get`, `Pools.Accounts.put`, `Pools.Accounts.putAll`: what is held after a `Get`
  and after a `Put`, with the counters exact and without wrapping.
-/

namespace AmneziaWG.Device

open AmneziaWG.Lib Option BitVec Nat

/-! ## §1 `WaitPool` -/

/-- The counter and the bound of a `WaitPool`. -/
structure WaitPool where
  count : BitVec 32
  max : BitVec 32
  deriving DecidableEq, Repr

namespace WaitPool

/-- `NewWaitPool`. -/
def new (max : BitVec 32) : WaitPool :=
  { count := 0, max }

/-- The counter after `Get`; `none` while the call waits. -/
def get (p : WaitPool) : Option WaitPool :=
  if p.max = 0 then some p
  else if p.count ≥ p.max then none
  else some { p with count := p.count + 1 }

def put (p : WaitPool) : WaitPool :=
  if p.max = 0 then p else { p with count := p.count - 1 }

/-- A pool with a bound has a certain number of objects out. -/
def Out (p : WaitPool) (n : ℕ) : Prop :=
  p.max ≠ 0 → p.count.toNat = n

theorem Out.get {p p' : WaitPool} {n : ℕ} (h : p.Out n) (hget : p.get = some p') :
    p'.Out (n + 1) := by
  unfold WaitPool.get at hget
  split_ifs at hget with hmax hfull
  · cases hget
    exact fun hne => absurd hmax hne
  · cases hget
    intro _
    -- below the bound, so the increment does not wrap
    have hlt : p.count.toNat < p.max.toNat := BitVec.lt_def.mp (BitVec.not_le.mp hfull)
    have hbound : p.max.toNat < 2 ^ 32 := p.max.isLt
    have hn := h hmax
    show (p.count + 1).toNat = n + 1
    rw [toNat_add, hn]
    exact mod_eq_of_lt (by show n + 1 < 2 ^ 32; omega)

theorem Out.put {p : WaitPool} {n : ℕ} (h : p.Out (n + 1)) : p.put.Out n := by
  unfold WaitPool.put
  split_ifs with hmax
  · exact fun hne => absurd hmax hne
  · intro _
    have hn := h hmax
    have hbound : p.count.toNat < 2 ^ 32 := p.count.isLt
    show (p.count - 1).toNat = n
    have hone : (1 : BitVec 32).toNat = 1 := rfl
    rw [toNat_sub_of_le (le_def.mpr (by omega)), hn, hone]
    omega

end WaitPool

/-! ## §2 The pools of a device -/

/-- The pools that the outbound path takes from. -/
inductive Pool where
  | outboundElementsContainer
  | outboundElements
  | messageBuffers
  deriving DecidableEq, Repr

/-- An object of a pool, by the number of the `Get` call that gave it out. -/
abbrev Resource := Pool × ℕ

/-- The pools, how many objects are out for other peers and routines, and the ledger of what the
TUN reader and the peer obtained. -/
structure Pools where
  pool : Pool → WaitPool
  others : Pool → ℕ
  ledger : Ledger Pool

namespace Pools

/-- `PopulatePools`. -/
def populate (max : BitVec 32) : Pools :=
  { pool := fun _ => WaitPool.new max, others := fun _ => 0, ledger := Ledger.empty }

/-- `Get` of one pool: the object and the pools after the call; `none` while it waits. -/
def get (p : Pools) (k : Pool) : Option (ℕ × Pools) :=
  (p.pool k).get.map fun w =>
    (p.ledger.next, { p with pool := Function.update p.pool k w, ledger := p.ledger.borrow k })

def put (p : Pools) (r : Resource) : Pools :=
  { p with
    pool := Function.update p.pool r.1 (p.pool r.1).put
    ledger := p.ledger.giveBack r }

def putAll (p : Pools) (rs : List Resource) : Pools :=
  rs.foldl put p

/-- `Get` by another routine. -/
def otherGet (p : Pools) (k : Pool) : Option Pools :=
  (p.pool k).get.map fun w =>
    { p with
      pool := Function.update p.pool k w
      others := Function.update p.others k (p.others k + 1) }

/-- `Put` by another routine that holds an object. -/
def otherPut (p : Pools) (k : Pool) : Option Pools :=
  if p.others k = 0 then none
  else some
    { p with
      pool := Function.update p.pool k (p.pool k).put
      others := Function.update p.others k (p.others k - 1) }

/-! ## §3 What is held -/

/-- The number of objects of one pool among those held. -/
def heldOf (held : Multiset Resource) (k : Pool) : ℕ :=
  held.countP fun r => r.1 = k

/-- Exactly the objects of `held` are out, apart from what others hold, and every counter says
so. -/
structure Accounts (p : Pools) (held : Multiset Resource) : Prop where
  balanced : p.ledger.Balanced held
  counted : ∀ k, (p.pool k).Out (p.others k + heldOf held k)

theorem accounts_populate (max : BitVec 32) : (populate max).Accounts 0 where
  balanced := Ledger.balanced_empty
  counted := fun _ _ => rfl

theorem heldOf_cons (r : Resource) (held : Multiset Resource) (k : Pool) :
    heldOf (r ::ₘ held) k = heldOf held k + if r.1 = k then 1 else 0 :=
  Multiset.countP_cons _ _ _

variable {p p' : Pools} {held : Multiset Resource} {k : Pool}

/-- An object that was obtained is held. -/
theorem Accounts.get {n : ℕ}
    (h : p.Accounts held) (hget : p.get k = some (n, p')) : p'.Accounts ((k, n) ::ₘ held) := by
  obtain ⟨w, hw, heq⟩ := map_eq_some_iff.mp hget
  cases heq
  refine ⟨h.balanced.borrow k, fun j => ?_⟩
  rw [heldOf_cons]
  by_cases hj : j = k
  · subst hj
    simpa [add_assoc] using (h.counted j).get hw
  · simpa [hj, Ne.symm hj] using h.counted j

/-- An object that is put back is no longer held. -/
theorem Accounts.put {r : Resource} (h : p.Accounts (r ::ₘ held)) : (p.put r).Accounts held := by
  refine ⟨h.balanced.giveBack, fun j => ?_⟩
  have hcount := h.counted j
  rw [heldOf_cons] at hcount
  by_cases hj : j = r.1
  · subst hj
    simpa [Pools.put] using (WaitPool.Out.put (by simpa [add_assoc] using hcount))
  · simpa [Pools.put, hj, Ne.symm hj] using hcount

theorem Accounts.putAll {rs : List Resource}
    (h : p.Accounts (held + (rs : Multiset Resource))) : (p.putAll rs).Accounts held := by
  induction rs generalizing p with
  | nil => simpa [Pools.putAll] using h
  | cons r rs ih =>
    have hfirst : p.Accounts (r ::ₘ (held + (rs : Multiset Resource))) := by
      rwa [← Multiset.add_cons, Multiset.cons_coe]
    exact ih hfirst.put

theorem Accounts.otherGet
    (h : p.Accounts held) (hget : p.otherGet k = some p') : p'.Accounts held := by
  obtain ⟨w, hw, heq⟩ := map_eq_some_iff.mp hget
  cases heq
  refine ⟨h.balanced, fun j => ?_⟩
  by_cases hj : j = k
  · subst hj
    simpa [add_right_comm] using (h.counted j).get hw
  · simpa [hj] using h.counted j

theorem Accounts.otherPut
    (h : p.Accounts held) (hput : p.otherPut k = some p') : p'.Accounts held := by
  unfold Pools.otherPut at hput
  split_ifs at hput with hnone
  cases hput
  refine ⟨h.balanced, fun j => ?_⟩
  by_cases hj : j = k
  · subst hj
    have hcount : (p.pool j).Out (p.others j - 1 + heldOf held j + 1) := by
      have hpos : p.others j - 1 + heldOf held j + 1 = p.others j + heldOf held j := by omega
      rw [hpos]
      exact h.counted j
    simpa using hcount.put
  · simpa [hj] using h.counted j

end Pools

/-! ## §4 Outbound elements and containers -/

/-- A `QueueOutboundElement` with its message buffer. -/
structure QueueOutboundElement where
  elem : ℕ
  buffer : ℕ
  deriving DecidableEq, Repr

/-- A `QueueOutboundElementsContainer`. -/
structure QueueOutboundElementsContainer where
  container : ℕ
  elems : List QueueOutboundElement
  deriving DecidableEq, Repr

/-- The objects of some elements, in the order in which the loops of the source put them back. -/
def elemResources (elems : List QueueOutboundElement) : List Resource :=
  elems.flatMap fun e => [(.messageBuffers, e.buffer), (.outboundElements, e.elem)]

/-- The objects of a container, its elements first. -/
def QueueOutboundElementsContainer.resources (c : QueueOutboundElementsContainer) : List Resource :=
  elemResources c.elems ++ [(.outboundElementsContainer, c.container)]

namespace Pools

def getOutboundElementsContainer (p : Pools) : Option (ℕ × Pools) :=
  p.get .outboundElementsContainer

def putOutboundElementsContainer (p : Pools) (c : QueueOutboundElementsContainer) : Pools :=
  p.put (.outboundElementsContainer, c.container)

/-- `NewOutboundElement`: an element, then its buffer. -/
def newOutboundElement (p : Pools) : Option (QueueOutboundElement × Pools) :=
  (p.get .outboundElements).bind fun (elem, p) =>
    (p.get .messageBuffers).map fun (buffer, p) => ({ elem, buffer }, p)

/-- The loop that puts back every element of a container, and then the container. -/
def putContainer (p : Pools) (c : QueueOutboundElementsContainer) : Pools :=
  (p.putAll (elemResources c.elems)).putOutboundElementsContainer c

theorem putContainer_eq (p : Pools) (c : QueueOutboundElementsContainer) :
    p.putContainer c = p.putAll c.resources := by
  simp [putContainer, QueueOutboundElementsContainer.resources, putAll,
    putOutboundElementsContainer]

variable {p : Pools} {held : Multiset Resource}

theorem Accounts.newOutboundElement {p' : Pools}
    {e : QueueOutboundElement} (h : p.Accounts held) (hget : p.newOutboundElement = some (e, p')) :
    p'.Accounts (held + (elemResources [e] : Multiset Resource)) := by
  obtain ⟨⟨elem, p₁⟩, helem, hrest⟩ := bind_eq_some_iff.mp hget
  obtain ⟨⟨buffer, p₂⟩, hbuffer, heq⟩ := map_eq_some_iff.mp hrest
  cases heq
  have hboth := (h.get helem).get hbuffer
  have hheld : held + (elemResources [{ elem, buffer }] : Multiset Resource) =
      (.messageBuffers, buffer) ::ₘ (.outboundElements, elem) ::ₘ held := by
    rw [add_comm]
    simp [elemResources, ← Multiset.cons_coe]
  rwa [hheld]

theorem Accounts.getOutboundElementsContainer {p' : Pools} {n : ℕ}
    (h : p.Accounts held) (hget : p.getOutboundElementsContainer = some (n, p')) :
    p'.Accounts (held + {(.outboundElementsContainer, n)}) := by
  rw [add_comm, Multiset.singleton_add]
  exact h.get hget

theorem Accounts.putContainer {c : QueueOutboundElementsContainer}
    (h : p.Accounts (held + (c.resources : Multiset Resource))) :
    (p.putContainer c).Accounts held := by
  rw [putContainer_eq]
  exact h.putAll

end Pools

@[simp]
theorem elemResources_nil : elemResources [] = [] :=
  rfl

theorem elemResources_cons (e : QueueOutboundElement) (elems : List QueueOutboundElement) :
    elemResources (e :: elems) = elemResources [e] ++ elemResources elems := by
  simp [elemResources]

theorem elemResources_append (elems elems' : List QueueOutboundElement) :
    elemResources (elems ++ elems') = elemResources elems ++ elemResources elems' := by
  simp [elemResources]

end AmneziaWG.Device
