import AmneziaWG.Lib.Crypto
import AmneziaWG.Replay.Filter
import Mathlib.Logic.Function.Basic

/-!
# Keypairs and the Index Table

Embedding of `device/keypair.go` and `device/indextable.go`.  Pointers to peers and keypairs
are the numbers under which they are stored; a handshake is a field of its peer.
-/

namespace AmneziaWG.Device

open AmneziaWG.Lib

def rejectAfterMessages : BitVec 64 := BitVec.ofNat 64 (2 ^ 64 - 2 ^ 13 - 1)

/-- `RejectAfterTime`, in nanoseconds. -/
def rejectAfterTime : ℕ := 180 * 10 ^ 9

/-- A `Keypair`.  `K` is the type of keys. -/
structure Keypair (K : Type) where
  sendNonce : BitVec 64
  send : K
  receive : K
  replayFilter : Replay.Filter
  isInitiator : Bool
  created : ℕ
  localIndex : BitVec 32
  remoteIndex : BitVec 32

/-- An entry of the index table; `nil` pointers are `none`. -/
structure IndexTableEntry where
  peer : Option ℕ
  handshake : Option ℕ
  keypair : Option ℕ
  deriving DecidableEq

def IndexTable : Type := BitVec 32 → Option IndexTableEntry

namespace IndexTable

def empty : IndexTable := fun _ => none

/-- `Lookup`: an absent entry is the zero value. -/
def lookup (table : IndexTable) (id : BitVec 32) : IndexTableEntry :=
  (table id).getD { peer := none, handshake := none, keypair := none }

def set (table : IndexTable) (index : BitVec 32) (entry : IndexTableEntry) : IndexTable :=
  Function.update table index (some entry)

def delete (table : IndexTable) (index : BitVec 32) : IndexTable :=
  Function.update table index none

/-- `SwapIndexForKeypair`; an index that is not there stays so. -/
def swapIndexForKeypair (table : IndexTable) (index : BitVec 32) (keypair : ℕ) : IndexTable :=
  match table index with
  | none => table
  | some entry =>
    table.set index { peer := entry.peer, keypair := some keypair, handshake := none }

/-- `NewIndexForHandshake`, for the handshake of a peer.  `draws` are the values that `randUint32`
gives; `none` when the loop is not over after them. -/
def newIndexForHandshake (table : IndexTable) (peer : ℕ) :
    List (BitVec 32) → Option (BitVec 32 × IndexTable)
  | [] => none
  | index :: draws =>
    match table index with
    | some _ => newIndexForHandshake table peer draws
    | none =>
      some (index, table.set index { peer := some peer, handshake := some peer, keypair := none })

end IndexTable

end AmneziaWG.Device
