import AmneziaWG.Lib.Bytes
import Mathlib.Logic.Function.Basic

/-!
# The AllowedIPs Table

Embedding of `device/allowedips.go`: two path-compressed binary tries (IPv4 and IPv6)
whose nodes point at their children, at the slot that holds them, and at the peer that
owns their prefix, together with one list of nodes per peer.

Pointers are kept as pointers.  Nodes live in a heap indexed by `ℕ`, and a
`**trieEntry` is a `Slot`: the root of a table or one of the two child fields of a node.
`remove` goes from a node to its parent by pointer arithmetic on such a slot.

A step that would dereference `nil`, index out of range or leave the heap returns `none`,
and so does a walk that does not end within its fuel; the proofs show that neither
happens on a table built by the operations.
-/

namespace AmneziaWG.Device

open AmneziaWG.Lib

/-! ## §1 Nodes and slots -/

inductive Family where
  | ipv4
  | ipv6
  deriving DecidableEq, Repr

/-- `net.IPv4len` and `net.IPv6len`. -/
def Family.addrLen : Family → ℕ
  | .ipv4 => 4
  | .ipv6 => 16

/-- What a `**trieEntry` can address: `&table.IPv4`, `&table.IPv6` or `&node.child[bit]`. -/
inductive Slot where
  | root (f : Family)
  | child (node : ℕ) (bit : Bool)
  deriving DecidableEq, Repr

/-- The `parentBitType` that goes with a slot: `2` for a root, else the child's bit. -/
def Slot.bitType : Slot → ℕ
  | .root _ => 2
  | .child _ bit => bit.toNat

structure ParentIndirection where
  parentBit : Option Slot
  parentBitType : ℕ
  deriving DecidableEq

/-- The indirection that addresses slot `s`. -/
def Slot.indirection (s : Slot) : ParentIndirection :=
  { parentBit := some s, parentBitType := s.bitType }

/-- A trie node.  `perPeerElem` is the list element of the node: the peer in whose
`trieEntries` it is linked. -/
structure TrieEntry (P : Type) where
  peer : Option P
  child : Bool → Option ℕ
  parent : ParentIndirection
  cidr : ℕ
  bitAtByte : ℕ
  bitAtShift : ℕ
  bits : Bytes
  perPeerElem : Option P

/-- `commonBits`: the number of leading bits that two addresses of one size share. -/
def commonBits (ip1 ip2 : Bytes) : ℕ :=
  if ip1.length = Family.ipv4.addrLen then
    leadingZeros 32 (beNat (ip1.take 4) ^^^ beNat (ip2.take 4))
  else if ip1.length = Family.ipv6.addrLen then
    let x := beNat (ip1.take 8) ^^^ beNat (ip2.take 8)
    if x ≠ 0 then
      leadingZeros 64 x
    else
      64 + leadingZeros 64 (beNat ((ip1.drop 8).take 8) ^^^ beNat ((ip2.drop 8).take 8))
  else
    0 -- panic("Wrong size bit string"): no address has another size

/-- `choose`: the bit of `ip` at which the node branches. -/
def TrieEntry.choose {P : Type} (node : TrieEntry P) (ip : Bytes) : Option Bool :=
  ip[node.bitAtByte]?.map fun (b : Byte) => (b >>> node.bitAtShift).getLsbD 0

/-- The loop of `net.CIDRMask`, with `n` one bits left to place. -/
def cidrMaskBytes : ℕ → ℕ → Bytes
  | 0, _ => []
  | l + 1, n =>
    if n ≥ 8 then 0xff#8 :: cidrMaskBytes l (n - 8)
    else ~~~(0xff#8 >>> n) :: cidrMaskBytes l 0

/-- `net.CIDRMask(ones, bits)`. -/
def cidrMask (ones bits : ℕ) : Bytes :=
  if (bits ≠ 32 ∧ bits ≠ 128) ∨ ones > bits then [] else cidrMaskBytes (bits / 8) ones

/-- `for i := 0; i < len(mask); i++ { bits[i] &= mask[i] }`. -/
def andMask : Bytes → Bytes → Bytes
  | b :: bs, m :: ms => (b &&& m) :: andMask bs ms
  | bs, _ => bs

def TrieEntry.maskSelf {P : Type} (node : TrieEntry P) : TrieEntry P :=
  { node with bits := andMask node.bits (cidrMask node.cidr (node.bits.length * 8)) }

/-- `&trieEntry{peer: …, parent: …, bits: …, cidr: …, bitAtByte: …, bitAtShift: …}`. -/
def newTrieEntry {P : Type} (peer : Option P) (parent : ParentIndirection) (bits : Bytes)
    (cidr : ℕ) : TrieEntry P :=
  { peer
    child := fun _ => none
    parent
    cidr
    bitAtByte := cidr / 8
    bitAtShift := 7 - cidr % 8
    bits
    perPeerElem := none }

/-- The `parent` field of a node that has not been linked yet. -/
def noParent : ParentIndirection :=
  { parentBit := none, parentBitType := 0 }

/-! ## §2 The table and its pointer writes -/

/-- The tables, the heap of their nodes, and the `trieEntries` list of every peer. -/
structure AllowedIPs (P : Type) where
  root : Family → Option ℕ
  node : ℕ → TrieEntry P
  next : ℕ
  trieEntries : P → List ℕ

namespace AllowedIPs

variable {P : Type}

def empty : AllowedIPs P :=
  { root := fun _ => none
    node := fun _ => newTrieEntry none noParent [] 0
    next := 0
    trieEntries := fun _ => [] }

/-- Read through a `**trieEntry`. -/
def get (t : AllowedIPs P) : Slot → Option ℕ
  | .root f => t.root f
  | .child n bit => (t.node n).child bit

def modify (t : AllowedIPs P) (n : ℕ) (f : TrieEntry P → TrieEntry P) : AllowedIPs P :=
  { t with node := Function.update t.node n (f (t.node n)) }

/-- Write through a `**trieEntry`. -/
def set (t : AllowedIPs P) (s : Slot) (v : Option ℕ) : AllowedIPs P :=
  match s with
  | .root f => { t with root := Function.update t.root f v }
  | .child n bit => t.modify n fun e => { e with child := Function.update e.child bit v }

def setParent (t : AllowedIPs P) (n : ℕ) (parent : ParentIndirection) : AllowedIPs P :=
  t.modify n fun e => { e with parent }

def setPeer (t : AllowedIPs P) (n : ℕ) (peer : Option P) : AllowedIPs P :=
  t.modify n fun e => { e with peer }

/-- Link node `n` into slot `s`: its `parent` and the slot point at each other. -/
def link (t : AllowedIPs P) (s : Slot) (n : ℕ) : AllowedIPs P :=
  (t.setParent n s.indirection).set s (some n)

def new (t : AllowedIPs P) (e : TrieEntry P) : AllowedIPs P :=
  { t with node := Function.update t.node t.next e, next := t.next + 1 }

def addToPeerEntries [DecidableEq P] (t : AllowedIPs P) (n : ℕ) (peer : P) : AllowedIPs P :=
  let t := { t with trieEntries := Function.update t.trieEntries peer (t.trieEntries peer ++ [n]) }
  t.modify n fun e => { e with perPeerElem := some peer }

/-- `node.peer.trieEntries.Remove(node.perPeerElem)`: a list gives up an element only when
the element is its own. -/
def removeFromPeerEntries [DecidableEq P] (t : AllowedIPs P) (n : ℕ) : AllowedIPs P :=
  match (t.node n).perPeerElem, (t.node n).peer with
  | some owner, some peer =>
    let t := if owner = peer then
        { t with trieEntries := Function.update t.trieEntries peer ((t.trieEntries peer).erase n) }
      else t
    t.modify n fun e => { e with perPeerElem := none }
  | _, _ => t

def zeroizePointers (t : AllowedIPs P) (n : ℕ) : AllowedIPs P :=
  t.modify n fun e =>
    { e with peer := none, child := fun _ => none, parent := { e.parent with parentBit := none } }

/-! ## §3 Placement and insertion -/

/-- The walk of `nodePlacement` from `node`, with `parent` the last node that matched. -/
def nodePlacementFrom (t : AllowedIPs P) (ip : Bytes) (cidr : ℕ) :
    ℕ → Option ℕ → Option ℕ → Option (Option ℕ × Bool)
  | 0, _, _ => none
  | _ + 1, parent, none => some (parent, false)
  | fuel + 1, parent, some n =>
    let node := t.node n
    if node.cidr ≤ cidr ∧ commonBits node.bits ip ≥ node.cidr then
      if node.cidr = cidr then some (some n, true)
      else (node.choose ip).bind fun bit =>
        nodePlacementFrom t ip cidr fuel (some n) (node.child bit)
    else some (parent, false)

/-- `nodePlacement`: the deepest node on the way to `ip/cidr`, and whether it is exactly
that prefix.  A trie of addresses of `n` bits is at most `n + 1` nodes deep. -/
def nodePlacement (t : AllowedIPs P) (f : Family) (ip : Bytes) (cidr : ℕ) :
    Option (Option ℕ × Bool) :=
  t.nodePlacementFrom ip cidr (8 * ip.length + 2) none (t.root f)

/-- Hang node `n` below `parent`, or at the root when there is no parent. -/
def hang (t : AllowedIPs P) (f : Family) (parent : Option ℕ) (n : ℕ) : Option (AllowedIPs P) :=
  match parent with
  | none => some (t.link (.root f) n)
  | some p => ((t.node p).choose (t.node n).bits).map fun bit => t.link (.child p bit) n

/-- The tail of `insert`: node `down` is in the way of `newNode`, and `newNode` goes above
it or beside it under a new branch node. -/
def insertBeside (t : AllowedIPs P) (f : Family) (parent : Option ℕ) (newNode down : ℕ) :
    Option (AllowedIPs P) :=
  let ip := (t.node newNode).bits
  let common := commonBits (t.node down).bits ip
  let cidr := min common (t.node newNode).cidr
  if (t.node newNode).cidr = cidr then do
    let bit ← (t.node newNode).choose (t.node down).bits
    (t.link (.child newNode bit) down).hang f parent newNode
  else do
    let node := t.next
    let t := t.new (newTrieEntry none noParent ip cidr).maskSelf
    let bit ← (t.node node).choose (t.node down).bits
    let t := t.link (.child node bit) down
    let bit ← (t.node node).choose (t.node newNode).bits
    let t := t.link (.child node bit) newNode
    t.hang f parent node

/-- `parentIndirection{&table.…, 2}.insert(ip, cidr, peer)`. -/
def insert [DecidableEq P] (t : AllowedIPs P) (f : Family) (ip : Bytes) (cidr : ℕ) (peer : P) :
    Option (AllowedIPs P) :=
  match t.root f with
  | none =>
    let node := t.next
    let t := t.new (newTrieEntry (some peer) (Slot.root f).indirection ip cidr).maskSelf
    some ((t.addToPeerEntries node peer).set (.root f) (some node))
  | some root => do
    let (placed, exact) ← t.nodePlacement f ip cidr
    if exact then
      let node ← placed
      return ((t.removeFromPeerEntries node).setPeer node (some peer)).addToPeerEntries node peer
    else
      let newNode := t.next
      let t := t.new (newTrieEntry (some peer) noParent ip cidr).maskSelf
      let t := t.addToPeerEntries newNode peer
      match placed with
      | none => t.insertBeside f none newNode root
      | some node =>
        -- `ip` is the slice that `maskSelf` has masked in place
        let bit ← (t.node node).choose (t.node newNode).bits
        match (t.node node).child bit with
        | none => return t.link (.child node bit) newNode
        | some down => t.insertBeside f (some node) newNode down

/-! ## §4 Removal -/

/-- `if child != nil { child.parent = parent }; *parentBit = child`. -/
def replaceChild (t : AllowedIPs P) (parent : ParentIndirection) (child : Option ℕ) :
    Option (AllowedIPs P) :=
  parent.parentBit.map fun s =>
    (match child with
      | some c => t.setParent c parent
      | none => t).set s child

/-- The node whose `child` array holds the slot: its address is the slot's address less the
offset of `child` and of element `bitType` in it. -/
def slotOwner (parent : ParentIndirection) : Option ℕ :=
  match parent.parentBit with
  | some (.child p bit) => if bit.toNat = parent.parentBitType then some p else none
  | _ => none

/-- `(*trieEntry).remove`. -/
def removeNode [DecidableEq P] (t : AllowedIPs P) (n : ℕ) : Option (AllowedIPs P) :=
  let t := (t.removeFromPeerEntries n).setPeer n none
  let node := t.node n
  if node.child false ≠ none ∧ node.child true ≠ none then
    some t
  else do
    let child := node.child (node.child false).isNone
    let t ← t.replaceChild node.parent child
    if node.child false ≠ none ∨ node.child true ≠ none ∨ node.parent.parentBitType > 1 then
      return t.zeroizePointers n
    else
      let p ← slotOwner node.parent
      let parent := t.node p
      if parent.peer ≠ none then
        return t.zeroizePointers n
      else
        let t ← t.replaceChild parent.parent (parent.child (node.parent.parentBitType = 0))
        return (t.zeroizePointers n).zeroizePointers p

/-- `elem.Value.(*trieEntry).remove()` for the elements of a list, front to back.  Removing
a node unlinks its own element only, so the successor taken before is still the next one. -/
def removeNodes [DecidableEq P] (t : AllowedIPs P) : List ℕ → Option (AllowedIPs P)
  | [] => some t
  | n :: ns => (t.removeNode n).bind fun t => t.removeNodes ns

end AllowedIPs

/-! ## §5 The operations of the table -/

/-- A `netip.Prefix`: an address of either family and a prefix length that fits it.  Host
bits may be set. -/
structure Prefix where
  family : Family
  addr : Bytes
  bits : ℕ
  addr_len : addr.length = family.addrLen
  bits_le : bits ≤ 8 * family.addrLen

namespace AllowedIPs

variable {P : Type}

/-- `AllowedIPs.Insert`. -/
def insertPrefix [DecidableEq P] (t : AllowedIPs P) (pfx : Prefix) (peer : P) :
    Option (AllowedIPs P) :=
  t.insert pfx.family pfx.addr pfx.bits peer

/-- `AllowedIPs.Remove`. -/
def remove [DecidableEq P] (t : AllowedIPs P) (pfx : Prefix) (peer : P) : Option (AllowedIPs P) :=
  (t.nodePlacement pfx.family pfx.addr pfx.bits).bind fun (placed, exact) =>
    match placed, exact with
    | some node, true => if (t.node node).peer = some peer then t.removeNode node else some t
    | _, _ => some t

/-- `AllowedIPs.RemoveByPeer`. -/
def removeByPeer [DecidableEq P] (t : AllowedIPs P) (peer : P) : Option (AllowedIPs P) :=
  t.removeNodes (t.trieEntries peer)

/-- The walk of `(*trieEntry).lookup`, with `found` the last peer seen. -/
def lookupFrom (t : AllowedIPs P) (ip : Bytes) :
    ℕ → Option P → Option ℕ → Option (Option P)
  | 0, _, _ => none
  | _ + 1, found, none => some found
  | fuel + 1, found, some n =>
    let node := t.node n
    if commonBits node.bits ip ≥ node.cidr then
      let found := node.peer.or found
      if node.bitAtByte = ip.length then some found
      else (node.choose ip).bind fun bit => lookupFrom t ip fuel found (node.child bit)
    else some found

/-- `AllowedIPs.Lookup`; `none` is the panic on an address of another size. -/
def lookup (t : AllowedIPs P) (ip : Bytes) : Option (Option P) :=
  if ip.length = Family.ipv6.addrLen then
    t.lookupFrom ip (8 * ip.length + 2) none (t.root .ipv6)
  else if ip.length = Family.ipv4.addrLen then
    t.lookupFrom ip (8 * ip.length + 2) none (t.root .ipv4)
  else
    none

end AllowedIPs

end AmneziaWG.Device
