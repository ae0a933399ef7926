import AmneziaWG.Lib.Bytes

/-!
# Cryptographic Primitives

The interfaces of the primitives that protocols are built on, and the properties that their
proofs assume.  Byte strings are of an arbitrary type where nothing depends on their form.
-/

namespace AmneziaWG.Lib

/-! ## §1 Authenticated encryption -/

/-- A cipher with associated data (`Seal` and `Open` of a `cipher.AEAD`).  The arguments are
the key, the nonce, the text and the associated data. -/
structure AEAD (K M : Type) where
  encrypt : K → M → M → M → M
  decrypt : K → M → M → M → Option M

def tagSize : ℕ := 16

/-- Opening inverts sealing, and sealing adds a tag. -/
structure AEAD.Correct {K : Type} (aead : AEAD K Bytes) : Prop where
  decrypt_encrypt : ∀ key nonce plaintext ad,
    aead.decrypt key nonce (aead.encrypt key nonce plaintext ad) ad = some plaintext
  encrypt_length : ∀ key nonce plaintext ad,
    (aead.encrypt key nonce plaintext ad).length = plaintext.length + tagSize

/-- A cipher that only appends a tag. -/
def plainAEAD : AEAD Unit Bytes where
  encrypt _ _ plaintext _ := plaintext ++ List.replicate tagSize 0
  decrypt _ _ ciphertext _ :=
    if tagSize ≤ ciphertext.length then some (ciphertext.take (ciphertext.length - tagSize))
      else none

theorem plainAEAD_correct : plainAEAD.Correct where
  decrypt_encrypt key nonce plaintext ad := by simp [plainAEAD]
  encrypt_length key nonce plaintext ad := by simp [plainAEAD]

/-! ## §2 Key agreement, hashes and authenticated encryption -/

/-- The primitives of a key exchange.  `S` is the type of secret keys, `M` that of all other byte
strings; `text` embeds the strings that a protocol writes down literally. -/
structure Primitives (S M : Type) where
  text : Bytes → M
  /-- The all-zero secret key. -/
  zeroSecret : S
  publicKey : S → M
  scalarMult : S → M → M
  isZero : M → Bool
  /-- The hash of a string, and of two strings one behind the other. -/
  sum : M → M
  sum2 : M → M → M
  /-- The keyed hash of a string, and of two strings one behind the other. -/
  hmac1 : M → M → M
  hmac2 : M → M → M → M
  aead : AEAD M M
  /-- Timestamps as plaintexts. -/
  ofTimestamp : BitVec 96 → M
  toTimestamp : M → BitVec 96

/-- What a key exchange relies on: Diffie-Hellman commutes and gives no zero, a cipher opens what
it sealed and nothing else, and a timestamp can be read back. -/
structure Primitives.Lawful {S M : Type} (c : Primitives S M) : Prop where
  scalarMult_comm : ∀ a b, c.scalarMult a (c.publicKey b) = c.scalarMult b (c.publicKey a)
  scalarMult_ne_zero : ∀ a b, c.isZero (c.scalarMult a (c.publicKey b)) = false
  decrypt_encrypt : ∀ key nonce plaintext ad,
    c.aead.decrypt key nonce (c.aead.encrypt key nonce plaintext ad) ad = some plaintext
  decrypt_reject : ∀ key key' nonce nonce' plaintext ad ad',
    (key', nonce', ad') ≠ (key, nonce, ad) →
      c.aead.decrypt key' nonce' (c.aead.encrypt key nonce plaintext ad) ad' = none
  toTimestamp_ofTimestamp : ∀ t, c.toTimestamp (c.ofTimestamp t) = t

/-! ## §3 Symbolic primitives -/

/-- Byte strings as terms: two of them are equal when they were made in the same way. -/
inductive Term where
  | text (b : Bytes)
  | pub (n : ℕ)
  | shared (low high : ℕ)
  | stamp (t : BitVec 96)
  | sum (t : Term)
  | sum2 (t u : Term)
  | hmac1 (key t : Term)
  | hmac2 (key t u : Term)
  | sealed (key nonce plaintext ad : Term)
  deriving DecidableEq

namespace Term

/-- Secrets are numbers; a shared secret names the two of them in order. -/
def scalarMult (a : ℕ) : Term → Term
  | .pub b => .shared (min a b) (max a b)
  | _ => .text (List.replicate 32 0)

def isZero (t : Term) : Bool := t = .text (List.replicate 32 0)

def decrypt (key nonce : Term) (ciphertext ad : Term) : Option Term :=
  match ciphertext with
  | .sealed key' nonce' plaintext ad' =>
    if key = key' ∧ nonce = nonce' ∧ ad = ad' then some plaintext else none
  | _ => none

def toTimestamp : Term → BitVec 96
  | .stamp t => t
  | _ => 0

end Term

/-- Primitives without any collision. -/
def symbolic : Primitives ℕ Term where
  text := .text
  zeroSecret := 0
  publicKey := .pub
  scalarMult := Term.scalarMult
  isZero := Term.isZero
  sum := .sum
  sum2 := .sum2
  hmac1 := .hmac1
  hmac2 := .hmac2
  aead := { encrypt := .sealed, decrypt := Term.decrypt }
  ofTimestamp := .stamp
  toTimestamp := Term.toTimestamp

theorem symbolic_lawful : symbolic.Lawful where
  scalarMult_comm a b := by simp [symbolic, Term.scalarMult, min_comm, max_comm]
  scalarMult_ne_zero a b := by simp [symbolic, Term.scalarMult, Term.isZero]
  decrypt_encrypt key nonce plaintext ad := by simp [symbolic, Term.decrypt]
  decrypt_reject key key' nonce nonce' plaintext ad ad' h := by
    simpa [symbolic, Term.decrypt] using h
  toTimestamp_ofTimestamp t := rfl

end AmneziaWG.Lib
