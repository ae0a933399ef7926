import AmneziaWG.Lib.Patch
import AmneziaWG.Lib.Text

/-!
# A Fake QUIC Initial

Embedding of `device/obf_imitate_quic.go`: the datagram of the tag `qinit`, a QUIC Initial packet
with a TLS ClientHello for a server name.  HKDF, AES and AES-GCM are parameters with the lengths of
their results; `none` is a panic.

## Main results

- `buildQUICInitial_yields`: for the server names that the tag accepts the datagram is built, and it
  has exactly the length that was asked for.
-/

namespace AmneziaWG.Device

open AmneziaWG.Lib List Option Nat

/-! ## §1 Keys -/

/-- HKDF with SHA-256, AES-GCM and AES.  The arguments stand in the order of the Go functions. -/
structure QuicCrypto where
  hkdfExtract : Bytes → Bytes → Bytes
  hkdfExpand : Bytes → Bytes → ℕ → Bytes
  /-- Key, nonce, plaintext and additional data. -/
  gcmSeal : Bytes → Bytes → Bytes → Bytes → Bytes
  encryptBlock : Bytes → Bytes → Bytes
  hkdfExpand_length : ∀ secret info n, (hkdfExpand secret info n).length = n
  gcmSeal_length : ∀ key nonce plaintext data, (gcmSeal key nonce plaintext data).length =
    plaintext.length + 16
  encryptBlock_length : ∀ key block, (encryptBlock key block).length = 16

def quicV1InitialSalt : Bytes :=
  [0x38, 0x76, 0x2c, 0xf7, 0xf5, 0x59, 0x34, 0xb3, 0x4d, 0x17, 0x9a, 0xe6, 0xa4, 0xc8, 0x0c, 0xad,
    0xcc, 0xbb, 0x7f, 0x0a]

section Keys

variable (crypto : QuicCrypto)

def hkdfExpandLabel (secret : Bytes) (label : String) (length : ℕ) : Option Bytes :=
  if length > 0xFFFF then none
  else
    let fullLabel := ascii "tls13 " ++ ascii label
    let info := be16 (BitVec.ofNat 16 length) ++ BitVec.ofNat 8 fullLabel.length ::
      fullLabel ++ [0x00]
    some (crypto.hkdfExpand secret info length)

/-- The key, the nonce base and the key of the header protection. -/
def deriveInitialKeys (dcid : Bytes) : Option (Bytes × Bytes × Bytes) := do
  let initialSecret := crypto.hkdfExtract dcid quicV1InitialSalt
  let clientSecret ← hkdfExpandLabel crypto initialSecret "client in" 32
  let key ← hkdfExpandLabel crypto clientSecret "quic key" 16
  let iv ← hkdfExpandLabel crypto clientSecret "quic iv" 12
  let hp ← hkdfExpandLabel crypto clientSecret "quic hp" 16
  return (key, iv, hp)

/-- The key sizes that `aes.NewCipher` accepts. -/
def isAESKey (key : Bytes) : Bool := key.length = 16 ∨ key.length = 24 ∨ key.length = 32

/-- `newAESGCM(key).Seal(nil, nonce, payload, hdr)`. -/
def sealInitial (key nonce payload hdr : Bytes) : Option Bytes :=
  if isAESKey key ∧ nonce.length = 12 then some (crypto.gcmSeal key nonce payload hdr) else none

def headerProtectionMask (hp sample : Bytes) : Option Bytes :=
  if sample.length ≠ 16 then none
  else if isAESKey hp then some (crypto.encryptBlock hp sample)
  else none

theorem hkdfExpandLabel_yields (secret : Bytes) (label : String) {length : ℕ}
    (h : length ≤ 0xFFFF) :
    Yields (hkdfExpandLabel crypto secret label length) length := by
  rw [hkdfExpandLabel, if_neg (not_lt.mpr h)]
  exact Yields.some (crypto.hkdfExpand_length _ _ _)

theorem deriveInitialKeys_eq (dcid : Bytes) :
    ∃ key iv hp, deriveInitialKeys crypto dcid = some (key, iv, hp) ∧
      key.length = 16 ∧ iv.length = 12 ∧ hp.length = 16 := by
  obtain ⟨secret, hsecret, -⟩ :=
    hkdfExpandLabel_yields crypto (crypto.hkdfExtract dcid quicV1InitialSalt) "client in"
      (by decide : 32 ≤ 0xFFFF)
  obtain ⟨key, hkey, hkeyLen⟩ :=
    hkdfExpandLabel_yields crypto secret "quic key" (by decide : 16 ≤ 0xFFFF)
  obtain ⟨iv, hiv, hivLen⟩ :=
    hkdfExpandLabel_yields crypto secret "quic iv" (by decide : 12 ≤ 0xFFFF)
  obtain ⟨hp, hhp, hhpLen⟩ :=
    hkdfExpandLabel_yields crypto secret "quic hp" (by decide : 16 ≤ 0xFFFF)
  refine ⟨key, iv, hp, ?_, hkeyLen, hivLen, hhpLen⟩
  simp only [deriveInitialKeys, hsecret, hkey, hiv, hhp, bind_eq_bind, bind_some]
  rfl

end Keys

/-! ## §2 The ClientHello -/

def appendQUICVarint (b : Bytes) (v : ℕ) : Bytes :=
  if v ≤ 63 then b ++ [BitVec.ofNat 8 v]
  else if v ≤ 16383 then b ++ [BitVec.ofNat 8 (0x40 ||| (v >>> 8)), BitVec.ofNat 8 v]
  else if v ≤ 1073741823 then
    b ++ [BitVec.ofNat 8 (0x80 ||| (v >>> 24)), BitVec.ofNat 8 (v >>> 16), BitVec.ofNat 8 (v >>> 8),
      BitVec.ofNat 8 v]
  else
    b ++ [BitVec.ofNat 8 (0xc0 ||| (v >>> 56)), BitVec.ofNat 8 (v >>> 48),
      BitVec.ofNat 8 (v >>> 40),
      BitVec.ofNat 8 (v >>> 32), BitVec.ofNat 8 (v >>> 24), BitVec.ofNat 8 (v >>> 16),
      BitVec.ofNat 8 (v >>> 8), BitVec.ofNat 8 v]

def appendU8Vec (b body : Bytes) : Option Bytes :=
  if body.length > 0xFF then none else some (b ++ BitVec.ofNat 8 body.length :: body)

def appendU16Vec (b body : Bytes) : Option Bytes :=
  if body.length > 0xFFFF then none else some (b ++ be16 (BitVec.ofNat 16 body.length) ++ body)

def tlsExtension (extType : BitVec 16) (data : Bytes) : Option Bytes :=
  appendU16Vec (be16 extType) data

/-- `n` bytes that are read from the random source after `off` others. -/
def drawBytes (random : ℕ → Byte) (off n : ℕ) : Bytes :=
  (List.range n).map fun i => random (off + i)

@[simp] theorem drawBytes_length (random : ℕ → Byte) (off n : ℕ) :
    (drawBytes random off n).length = n := by
  simp [drawBytes]

/-- The extensions of the ClientHello, in the order of the source. -/
def clientHelloExtensions (sni pub scid : Bytes) : Option Bytes := do
  let sniList := 0x00 :: be16 (BitVec.ofNat 16 sni.length) ++ sni
  let serverName ← tlsExtension 0x0000 (← appendU16Vec [] sniList)
  let versions ← tlsExtension 0x002b (← appendU8Vec [] [0x03, 0x04])
  let groups ← tlsExtension 0x000a (← appendU16Vec [] [0x00, 0x1d])
  let ks ← appendU16Vec [] pub
  let keyShare ← tlsExtension 0x0033 (← appendU16Vec [] ([0x00, 0x1d] ++ ks))
  let algorithms ← tlsExtension 0x000d (← appendU16Vec [] [0x04, 0x03, 0x08, 0x04, 0x04, 0x01])
  let alpn ← tlsExtension 0x0010 (← appendU16Vec [] (← appendU8Vec [] (ascii "h3")))
  -- initial_source_connection_id repeats the connection ID of the Initial header
  let params ← tlsExtension 0x0039 (0x0f :: BitVec.ofNat 8 scid.length :: scid)
  return serverName ++ versions ++ groups ++ keyShare ++ algorithms ++ alpn ++ params

/-- `buildClientHelloWithRand`, with the two values that it draws. -/
def buildClientHello (sni scid pub random : Bytes) : Option Bytes := do
  let exts ← clientHelloExtensions sni pub scid
  let body := [0x03, 0x03] ++ random
  let body ← appendU8Vec body []
  let body ← appendU16Vec body [0x13, 0x01, 0x13, 0x02, 0x13, 0x03]
  let body ← appendU8Vec body [0x00]
  let body ← appendU16Vec body exts
  let n := body.length
  return [0x01, BitVec.ofNat 8 (n >>> 16), BitVec.ofNat 8 (n >>> 8), BitVec.ofNat 8 n] ++ body

def buildCryptoFrame (data : Bytes) : Bytes :=
  appendQUICVarint (appendQUICVarint [0x06] 0) data.length ++ data

theorem appendU16Vec_yields (b : Bytes) {body : Bytes} {n : ℕ} (h : body.length ≤ 0xFFFF)
    (hn : b.length + 2 + body.length = n) : Yields (appendU16Vec b body) n := by
  rw [appendU16Vec, if_neg (not_lt.mpr h)]
  refine Yields.some ?_
  rw [length_append, length_append, be16_length, hn]

theorem appendU8Vec_yields (b : Bytes) {body : Bytes} {n : ℕ} (h : body.length ≤ 0xFF)
    (hn : b.length + 1 + body.length = n) : Yields (appendU8Vec b body) n := by
  rw [appendU8Vec, if_neg (not_lt.mpr h)]
  refine Yields.some ?_
  rw [length_append, length_cons, ← hn]
  omega

theorem tlsExtension_yields (extType : BitVec 16) {data : Bytes} {n : ℕ} (h : data.length ≤ 0xFFFF)
    (hn : data.length + 4 = n) : Yields (tlsExtension extType data) n := by
  refine appendU16Vec_yields _ h ?_
  rw [be16_length, ← hn]
  omega

theorem clientHelloExtensions_yields {sni pub scid : Bytes} (hsni : sni.length ≤ 255)
    (hpub : pub.length = 32) (hscid : scid.length = 8) :
    Yields (clientHelloExtensions sni pub scid) (sni.length + 101) := by
  have hlist : (0x00 :: be16 (BitVec.ofNat 16 sni.length) ++ sni).length = sni.length + 3 := by
    simp only [length_append, length_cons, be16_length]
    omega
  unfold clientHelloExtensions
  -- one rule for each line: the vector or the extension is short enough, and has the length given
  refine (appendU16Vec_yields [] (n := sni.length + 5) (by omega) (by simp; omega)).bind fun _ h₁ =>
    ?_
  refine (tlsExtension_yields _ (n := sni.length + 9) (by omega) (by omega)).bind fun _ h₂ => ?_
  refine (appendU8Vec_yields [] (n := 3) (by simp) (by simp)).bind fun _ h₃ => ?_
  refine (tlsExtension_yields _ (n := 7) (by omega) (by omega)).bind fun _ h₄ => ?_
  refine (appendU16Vec_yields [] (n := 4) (by simp) (by simp)).bind fun _ h₅ => ?_
  refine (tlsExtension_yields _ (n := 8) (by omega) (by omega)).bind fun _ h₆ => ?_
  refine (appendU16Vec_yields [] (n := 34) (by omega) (by simp; omega)).bind fun _ h₇ => ?_
  refine (appendU16Vec_yields [] (n := 38) (by simp; omega) (by simp; omega)).bind fun _ h₈ => ?_
  refine (tlsExtension_yields _ (n := 42) (by omega) (by omega)).bind fun _ h₉ => ?_
  refine (appendU16Vec_yields [] (n := 8) (by simp) (by simp)).bind fun _ h₁₀ => ?_
  refine (tlsExtension_yields _ (n := 12) (by omega) (by omega)).bind fun _ h₁₁ => ?_
  refine (appendU8Vec_yields [] (n := 3) (by decide) (by decide)).bind fun _ h₁₂ => ?_
  refine (appendU16Vec_yields [] (n := 5) (by omega) (by simp; omega)).bind fun _ h₁₃ => ?_
  refine (tlsExtension_yields _ (n := 9) (by omega) (by omega)).bind fun _ h₁₄ => ?_
  refine (tlsExtension_yields _ (n := 14) (by simp; omega) (by simp; omega)).bind fun _ h₁₅ => ?_
  refine Yields.some ?_
  simp only [length_append]
  omega

theorem buildClientHello_yields {sni scid pub random : Bytes} (hsni : sni.length ≤ 255)
    (hscid : scid.length = 8) (hpub : pub.length = 32) (hrandom : random.length = 32) :
    Yields (buildClientHello sni scid pub random) (sni.length + 152) := by
  unfold buildClientHello
  refine (clientHelloExtensions_yields hsni hpub hscid).bind fun _ h₁ => ?_
  refine (appendU8Vec_yields _ (n := 35) (by simp) (by simp; omega)).bind fun _ h₂ => ?_
  refine (appendU16Vec_yields _ (n := 43) (by simp) (by simp; omega)).bind fun _ h₃ => ?_
  refine (appendU8Vec_yields _ (n := 45) (by simp) (by simp; omega)).bind fun _ h₄ => ?_
  refine (appendU16Vec_yields _ (n := sni.length + 148) (by omega) (by omega)).bind fun _ h₅ => ?_
  refine Yields.some ?_
  simp only [length_append, length_cons, length_nil]
  omega

/-! ## §3 The datagram -/

def qinitDatagramLen : ℕ := 1200

/-- `buildQUICInitialWithRand`.  The random bytes are read in the order of the source: both
connection IDs, the packet number, the key share and the random of the ClientHello. -/
def buildQUICInitial (crypto : QuicCrypto) (random : ℕ → Byte) (sni : Bytes) (datagramLen : ℕ) :
    Option Bytes := do
  let pnLen := 4
  let dcid := drawBytes random 0 8
  let scid := drawBytes random 8 8
  let pn := drawBytes random 16 pnLen
  let (key, iv, hp) ← deriveInitialKeys crypto dcid
  let hello ← buildClientHello sni scid (drawBytes random 20 32) (drawBytes random 52 32)
  let headerLen := 1 + 4 + 1 + dcid.length + 1 + scid.length + 1 + 2 + pnLen
  -- `make` panics on a negative length
  if datagramLen < headerLen + 16 then none
  else
    let payloadLen := datagramLen - headerLen - 16
    let payload := copyBytes (List.replicate payloadLen 0) (buildCryptoFrame hello)
    let lengthField := pnLen + payloadLen + 16
    let hdr ← appendU8Vec (0xC3 :: be32 1) dcid
    let hdr ← appendU8Vec hdr scid
    let hdr := appendQUICVarint (hdr ++ [0x00]) lengthField
    let pnOffset := hdr.length
    let hdr := hdr ++ pn
    let nonce := copyBytes (List.replicate 12 0) iv
    let nonce := nonce.take (12 - pnLen) ++ List.zipWith (· ^^^ ·) (nonce.drop (12 - pnLen)) pn
    let sealed ← sealInitial crypto key nonce payload hdr
    let pkt := hdr ++ sealed
    let sample ← sliceRange pkt (pnOffset + 4) (pnOffset + 4 + 16)
    let mask ← headerProtectionMask crypto hp sample
    let pkt := pkt.modify 0 fun b => b ^^^ (byteAt mask 0 &&& 0x0f)
    return (List.range pnLen).foldl
      (fun pkt i => pkt.modify (pnOffset + i) fun b => b ^^^ byteAt mask (1 + i)) pkt

theorem appendQUICVarint_length (b : Bytes) {v : ℕ} (hlow : 63 < v) (hhigh : v ≤ 16383) :
    (appendQUICVarint b v).length = b.length + 2 := by
  rw [appendQUICVarint, if_neg (not_le.mpr hlow), if_pos hhigh, length_append]
  rfl

theorem sealInitial_yields {crypto : QuicCrypto} {key nonce payload : Bytes} (hdr : Bytes) {n : ℕ}
    (hkey : key.length = 16) (hnonce : nonce.length = 12) (hn : payload.length + 16 = n) :
    Yields (sealInitial crypto key nonce payload hdr) n := by
  rw [sealInitial, if_pos ⟨by simp [isAESKey, hkey], hnonce⟩]
  exact Yields.some (by rw [crypto.gcmSeal_length, hn])

theorem headerProtectionMask_yields {crypto : QuicCrypto} {hp sample : Bytes} (hhp : hp.length = 16)
    (hsample : sample.length = 16) : Yields (headerProtectionMask crypto hp sample) 16 := by
  rw [headerProtectionMask, if_neg (not_not.mpr hsample), if_pos (by simp [isAESKey, hhp])]
  exact Yields.some (crypto.encryptBlock_length hp sample)

theorem sliceRange_yields {b : Bytes} {low high : ℕ} (hlow : low ≤ high) (hhigh : high ≤ b.length) :
    Yields (sliceRange b low high) (high - low) := by
  rw [sliceRange_eq hlow hhigh]
  exact Yields.some (field_length (by omega))

/-- **The datagram of `qinit`** has the length that was asked for, for every server name that is
accepted. -/
theorem buildQUICInitial_yields (crypto : QuicCrypto) (random : ℕ → Byte) {sni : Bytes}
    (hsni : sni.length ≤ 255) :
    Yields (buildQUICInitial crypto random sni qinitDatagramLen) qinitDatagramLen := by
  obtain ⟨key, iv, hp, hkeys, hkey, hiv, hhp⟩ := deriveInitialKeys_eq crypto (drawBytes random 0 8)
  unfold buildQUICInitial
  simp only [hkeys, bind_eq_bind, bind_some]
  refine (buildClientHello_yields hsni (drawBytes_length _ _ _) (drawBytes_length _ _ _)
    (drawBytes_length _ _ _)).bind fun hello hhello => ?_
  rw [if_neg (by simp [qinitDatagramLen])]
  refine (appendU8Vec_yields _ (n := 14) (by simp) (by simp)).bind fun hdr₁ hhdr₁ => ?_
  refine (appendU8Vec_yields _ (n := 23) (by simp) (by simp; omega)).bind fun hdr₂ hhdr₂ => ?_
  -- the length field is a varint of two bytes
  generalize hhdr : appendQUICVarint (hdr₂ ++ [0x00]) _ = hdr
  have hhdrLen : hdr.length = 26 := by
    rw [← hhdr, appendQUICVarint_length _ (by simp [qinitDatagramLen]) (by simp [qinitDatagramLen])]
    simp; omega
  refine (sealInitial_yields _ (n := 1170) hkey ?_ ?_).bind fun sealed hsealed => ?_
  · simp
  · simp only [copyBytes_length, length_replicate, drawBytes_length, qinitDatagramLen]
  have hpkt : (hdr ++ drawBytes random 16 4 ++ sealed).length = 1200 := by
    simp; omega
  refine (sliceRange_yields (by omega) (by omega)).bind fun sample hsample => ?_
  refine (headerProtectionMask_yields hhp (by omega)).bind fun mask hmask => ?_
  refine Yields.some ?_
  simp only [range_succ, range_zero, foldl_append, foldl_cons, foldl_nil, nil_append, length_modify]
  exact hpkt

end AmneziaWG.Device
