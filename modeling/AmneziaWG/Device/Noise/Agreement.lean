import AmneziaWG.Device.Noise.Indices

/-!
# Handshake Agreement

Two devices, each with a freshly created peer for the other, run one handshake:
`CreateMessageInitiation` and `ConsumeMessageInitiation`, `CreateMessageResponse` and
`ConsumeMessageResponse`, and `BeginSymmetricSession` on both sides.  The two sides mix the same
values in different orders and styles; after each message their transcripts are equal.

## Main results

- `handshake_agreement_iff`: the handshake succeeds and the sides agree, unless a header range is
  the range of all values, on which `Generate` panics.
-/

namespace AmneziaWG.Device

open AmneziaWG.Lib Option BitVec Nat Function Handshake

variable {S M : Type}

/-! ## §1 The key schedules -/

/-- An initiation and the transcript behind it, by what both sides know: the responder's static key,
the ephemeral key, the secret of the two, the initiator's static key and the secret of the static
keys. -/
def initiationOf (c : Primitives S M) (responder x ss initiator pre : M) (timestamp : BitVec 96) :
    InitiationBody M × Transcript M :=
  let hash := mixHash c (mixHash c (initialHash c) responder) x
  let keys := kdf2 c (mixKey c (initialChainKey c) x) ss
  let static := encryptZero c keys.2 initiator hash
  let hash := mixHash c hash static
  let keys := kdf2 c keys.1 pre
  let sealed := encryptZero c keys.2 (c.ofTimestamp timestamp) hash
  ({ ephemeral := x, static, timestamp := sealed },
    { hash := mixHash c hash sealed, chainKey := keys.1 })

/-- A response and the transcript behind it, by what both sides know: the transcript so far, the
ephemeral key, its secrets with the other ephemeral key and with the static key, and the preshared
key. -/
def responseOf (c : Primitives S M) (t : Transcript M) (x ss ss' presharedKey : M) :
    ResponseBody M × Transcript M :=
  let keys := kdf3 c (mixKey c (mixKey c (mixKey c t.chainKey x) ss) ss') presharedKey
  let hash := mixHash c (mixHash c t.hash x) keys.2.1
  let empty := encryptZero c keys.2.2 (c.text []) hash
  ({ ephemeral := x, empty }, { hash := mixHash c hash empty, chainKey := keys.1 })

theorem createInitiation_eq {c : Primitives S M} {h : Handshake S M} {e : S} {ss : M}
    (hss : sharedSecret c e h.remoteStatic = some ss)
    (hzero : c.isZero h.precomputedStaticStatic = false) (publicKey : M) (timestamp : BitVec 96) :
    let made := initiationOf c h.remoteStatic (c.publicKey e) ss publicKey h.precomputedStaticStatic
      timestamp
    let created := h.createInitiation c publicKey e timestamp
    created.2 = some made.1 ∧ (created.1.mixHash c made.1.timestamp).transcript = made.2 := by
  simp only [Handshake.createInitiation, Handshake.mixHash, Handshake.mixKey, hss, hzero,
    Bool.false_eq_true, if_false]
  exact ⟨rfl, rfl⟩

theorem createResponse_eq {c : Primitives S M} {h : Handshake S M} {e : S} {ss ss' : M}
    (hss : sharedSecret c e h.remoteEphemeral = some ss)
    (hss' : sharedSecret c e h.remoteStatic = some ss') :
    let made := responseOf c h.transcript (c.publicKey e) ss ss' h.presharedKey
    (h.createResponse c e).2 = some made.1 ∧ (h.createResponse c e).1.transcript = made.2 := by
  simp only [Handshake.createResponse, Handshake.mixHash, Handshake.mixKey, hss, hss']
  exact ⟨rfl, rfl⟩

section Schedule

variable {c : Primitives S M} (hc : c.Lawful)
variable {h : Handshake S M} {sk : S} {x ss : M}
include hc

theorem sharedSecret_publicKey (a b : S) :
    sharedSecret c a (c.publicKey b) = some (c.scalarMult a (c.publicKey b)) := by
  simp [sharedSecret, hc.scalarMult_ne_zero]

theorem decryptZero_encryptZero (key plaintext ad : M) :
    decryptZero c key (encryptZero c key plaintext ad) ad = some plaintext :=
  hc.decrypt_encrypt _ _ _ _

theorem decryptZero_other {key key' : M} (hne : key' ≠ key) (plaintext ad ad' : M) :
    decryptZero c key' (encryptZero c key plaintext ad) ad' = none := by
  refine hc.decrypt_reject _ _ _ _ _ _ _ ?_
  simp [hne]

/-- The responder reads the initiator's static key, the timestamp and the same transcript. -/
theorem open_initiationOf {responder initiator pre : M}
    {timestamp : BitVec 96} (hss : sharedSecret c sk x = some ss)
    (hpre : h.precomputedStaticStatic = pre) (hzero : c.isZero pre = false)
    {msg : MessageInitiation M}
    (hmsg : (⟨msg.ephemeral, msg.static, msg.timestamp⟩ : InitiationBody M) =
      (initiationOf c responder x ss initiator pre timestamp).1) :
    ∃ t, openStatic c sk responder msg = some (initiator, t) ∧ h.openTimestamp c t msg =
        some (timestamp, (initiationOf c responder x ss initiator pre timestamp).2) := by
  simp only [initiationOf, InitiationBody.mk.injEq] at hmsg
  obtain ⟨hx, hstatic, htimestamp⟩ := hmsg
  refine ⟨⟨mixHash c (mixHash c (mixHash c (initialHash c) responder) x) msg.static,
    (kdf2 c (mixKey c (initialChainKey c) x) ss).1⟩, ?_, ?_⟩
  · simp only [openStatic, hx, hss, hstatic, bind_eq_bind, bind_some, decryptZero_encryptZero hc]
    rfl
  · simp only [openTimestamp, hpre, hzero, Bool.false_eq_true, if_false, htimestamp, hstatic,
      decryptZero_encryptZero hc, bind_eq_bind, bind_some, hc.toTimestamp_ofTimestamp]
    rfl

/-- The initiator accepts a response that was made with its preshared key, and has the same
transcript.  One that was made with another key does not authenticate. -/
theorem open_responseOf {ss' : M} (hstate : h.state = .initiationCreated)
    (hss : sharedSecret c h.localEphemeral x = some ss) (hss' : sharedSecret c sk x = some ss')
    (presharedKey : M) (msg : MessageResponse M)
    (hmsg : (⟨msg.ephemeral, msg.empty⟩ : ResponseBody M) =
      (responseOf c h.transcript x ss ss' presharedKey).1) : (h.presharedKey = presharedKey →
        h.openResponse c sk msg = some (responseOf c h.transcript x ss ss' presharedKey).2) ∧
      (NoCollisions c → h.presharedKey ≠ presharedKey → h.openResponse c sk msg = none) := by
  simp only [responseOf, transcript, ResponseBody.mk.injEq] at hmsg ⊢
  obtain ⟨hx, hempty⟩ := hmsg
  simp only [openResponse, hstate, ne_eq, not_true_eq_false, if_false, hx, hss, hss', hempty,
    bind_eq_bind, bind_some]
  constructor
  · rintro rfl
    rw [decryptZero_encryptZero hc]
    rfl
  · intro hcollisions hpsk
    rw [decryptZero_other hc fun hkey => hpsk (hcollisions.pskKey _ _ _ _ hkey).2]
    rfl

end Schedule

/-! ## §2 One handshake between two devices -/

theorem tai64nStamp_pos {now : ℤ} (hlow : -2 ^ 62 ≤ now / 10 ^ 9) (hhigh : now / 10 ^ 9 < 2 ^ 62) :
    0 < tai64nStamp now := by
  have hsecs : (0x400000000000000a + BitVec.ofInt 64 (now / 10 ^ 9)).toNat ≠ 0 := by
    rw [toNat_add, toNat_ofInt]
    generalize now / 10 ^ 9 = s at *
    rw [show BitVec.toNat (0x400000000000000a : BitVec 64) = 2 ^ 62 + 10 from rfl]
    omega
  rw [lt_def]
  refine pos_of_ne_zero fun hzero => hsecs ?_
  simp only [tai64nStamp, BitVec.toNat_append, Nat.or_eq_zero_iff, Nat.shiftLeft_eq] at hzero
  exact (Nat.mul_eq_zero.mp hzero.1).resolve_right (by decide)

theorem IndexTable.newIndexForHandshake_some {t : IndexTable} {p : ℕ} {draws : List (BitVec 32)}
    (h : ∃ i ∈ draws, t i = none) :
    ∃ i, t.newIndexForHandshake p draws = some (i, t.set i (.ofHandshake p)) := by
  induction draws with
  | nil => simp at h
  | cons j draws ih =>
    unfold newIndexForHandshake
    cases hj : t j with
    | none => exact ⟨j, rfl⟩
    | some e =>
      obtain ⟨i, hi, hfree⟩ := h
      rcases List.mem_cons.mp hi with rfl | hi
      · rw [hj] at hfree
        cases hfree
      · exact ih ⟨i, hi, hfree⟩

namespace NoiseDevice

/-- Two devices with a freshly created peer for each other. -/
structure Paired (c : Primitives S M) (a b : NoiseDevice S M) (pa pb : ℕ) (pskA pskB : M) :
    Prop where
  publicKey_a : a.publicKey = c.publicKey a.privateKey
  publicKey_b : b.publicKey = c.publicKey b.privateKey
  peer_a : a.peer pa = newPeer c a.privateKey b.publicKey pskA
  peer_b : b.peer pb = newPeer c b.privateKey a.publicKey pskB
  lookup : b.lookupPeer a.publicKey = some pb

/-- What the two sides draw and read during a handshake. -/
structure HandshakeDraws (S : Type) where
  ephemeralA : S
  ephemeralB : S
  typeA : ℕ
  typeB : ℕ
  indicesA : List (BitVec 32)
  indicesB : List (BitVec 32)
  nowA : ℤ
  nowB : ℤ

def initiationMessage (body : InitiationBody M) (type sender : BitVec 32) : MessageInitiation M :=
  { type, sender, ephemeral := body.ephemeral, static := body.static, timestamp := body.timestamp }

theorem createMessageInitiation_some {c : Primitives S M} {d : NoiseDevice S M} {p : ℕ} {e : S}
    {typeDraw : ℕ} {now : ℤ} {draws : List (BitVec 32)} {type i : BitVec 32}
    {body : InitiationBody M} (htype : d.headers.init.generate typeDraw = some type)
    (hbody : ((d.handshake p).createInitiation c d.publicKey e (tai64nStamp now)).2 = some body)
    (hindex : (d.indexTable.delete (d.handshake p).localIndex).newIndexForHandshake p draws =
      some (i, (d.indexTable.delete (d.handshake p).localIndex).set i (.ofHandshake p))) :
    d.createMessageInitiation c p e typeDraw now draws =
      some (d.assign p i
        { ((d.handshake p).createInitiation c d.publicKey e (tai64nStamp now)).1.mixHash c
          body.timestamp with localIndex := i, state := .initiationCreated },
        some (initiationMessage body type i)) := by
  have hframe := createInitiation_frame c (d.handshake p) d.publicKey e (tai64nStamp now)
  rcases hcreated : (d.handshake p).createInitiation c d.publicKey e (tai64nStamp now) with
    ⟨handshake, _ | body'⟩
  · rw [hcreated] at hbody
    cases hbody
  · rw [hcreated] at hbody hframe
    cases hbody
    have hlocal : handshake.localIndex = (d.handshake p).localIndex :=
      (congrArg localIndex hframe :)
    simp only [createMessageInitiation, htype, hcreated, hlocal, hindex, bind_eq_bind, bind_some]
    rfl

/-! ## §3 The stages -/

/-- The initiation of a paired device, and the transcript behind it. -/
def pairedInitiation (c : Primitives S M) (a b : NoiseDevice S M) (draws : HandshakeDraws S) :
    InitiationBody M × Transcript M :=
  initiationOf c b.publicKey (c.publicKey draws.ephemeralA)
    (c.scalarMult draws.ephemeralA b.publicKey) a.publicKey (c.scalarMult a.privateKey b.publicKey)
    (tai64nStamp draws.nowA)

/-- The response of a paired device, and the transcript behind it. -/
def pairedResponse (c : Primitives S M) (a b : NoiseDevice S M) (draws : HandshakeDraws S)
    (presharedKey : M) : ResponseBody M × Transcript M :=
  responseOf c (pairedInitiation c a b draws).2 (c.publicKey draws.ephemeralB)
    (c.scalarMult draws.ephemeralB (c.publicKey draws.ephemeralA))
    (c.scalarMult draws.ephemeralB a.publicKey) presharedKey

section Stages

variable {c : Primitives S M} {a b : NoiseDevice S M} {pa pb : ℕ} {pskA pskB : M}
  (draws : HandshakeDraws S)
variable {type i : BitVec 32}

/-- The initiator waits for a response to the initiation. -/
structure WaitsA (c : Primitives S M) (a b : NoiseDevice S M) (pa : ℕ) (pskA : M)
    (draws : HandshakeDraws S) (i : BitVec 32) (a₁ : NoiseDevice S M) : Prop where
  privateKey : a₁.privateKey = a.privateKey
  entry : a₁.indexTable i = some (.ofHandshake pa)
  state : (a₁.handshake pa).state = .initiationCreated
  localEphemeral : (a₁.handshake pa).localEphemeral = draws.ephemeralA
  presharedKey : (a₁.handshake pa).presharedKey = pskA
  localIndex : (a₁.handshake pa).localIndex = i
  transcript : (a₁.handshake pa).transcript = (pairedInitiation c a b draws).2

theorem initiation_created (hc : c.Lawful) (hpaired : Paired c a b pa pb pskA pskB)
    (htype : a.headers.init.generate draws.typeA = some type)
    (hfree : ∃ i ∈ draws.indicesA, a.indexTable.delete 0 i = none) :
    ∃ a₁ i, a.createMessageInitiation c pa draws.ephemeralA draws.typeA draws.nowA draws.indicesA =
        some (a₁, some (initiationMessage (pairedInitiation c a b draws).1 type i)) ∧
      WaitsA c a b pa pskA draws i a₁ := by
  have hhandshake : a.handshake pa = (newPeer c a.privateKey b.publicKey pskA).handshake :=
    congrArg NoisePeer.handshake hpaired.peer_a
  have hlocal : (a.handshake pa).localIndex = 0 := by rw [hhandshake]; rfl
  have hss : sharedSecret c draws.ephemeralA (a.handshake pa).remoteStatic =
      some (c.scalarMult draws.ephemeralA b.publicKey) := by
    rw [hhandshake]
    show sharedSecret c draws.ephemeralA b.publicKey = _
    rw [hpaired.publicKey_b]
    exact sharedSecret_publicKey hc _ _
  have hzero : c.isZero (a.handshake pa).precomputedStaticStatic = false := by
    rw [hhandshake]
    show c.isZero (c.scalarMult a.privateKey b.publicKey) = false
    rw [hpaired.publicKey_b]
    exact hc.scalarMult_ne_zero _ _
  obtain ⟨hbody, htranscript⟩ := createInitiation_eq hss hzero a.publicKey (tai64nStamp draws.nowA)
  have hframe := createInitiation_frame c (a.handshake pa) a.publicKey draws.ephemeralA
    (tai64nStamp draws.nowA)
  -- the values are those of the fresh peer
  have hmade : initiationOf c (a.handshake pa).remoteStatic (c.publicKey draws.ephemeralA)
      (c.scalarMult draws.ephemeralA b.publicKey) a.publicKey
      (a.handshake pa).precomputedStaticStatic (tai64nStamp draws.nowA) =
      pairedInitiation c a b draws := by
    rw [hhandshake]
    rfl
  rw [hmade] at hbody htranscript
  rw [← hlocal] at hfree
  -- a free index among the draws ends the loop of `NewIndexForHandshake`
  obtain ⟨i, hindex⟩ := IndexTable.newIndexForHandshake_some hfree
  refine ⟨_, i, createMessageInitiation_some htype hbody hindex, ?_⟩
  refine ⟨rfl, ?_, ?_, ?_, ?_, ?_, ?_⟩
  · simp [assign, setHandshake, IndexTable.set_apply]
  all_goals rw [assign, handshake_setHandshake, if_pos rfl]
  · simp only [Handshake.mixHash]
    rw [hframe]
  · simp only [Handshake.mixHash]
    rw [hframe, hhandshake]
    rfl
  · exact htranscript

/-- The responder has consumed the initiation. -/
structure ConsumedB (c : Primitives S M) (a b : NoiseDevice S M) (pb : ℕ) (pskB : M)
    (draws : HandshakeDraws S) (i : BitVec 32) (b₁ : NoiseDevice S M) : Prop where
  headers : b₁.headers = b.headers
  indexTable : b₁.indexTable = b.indexTable
  state : (b₁.handshake pb).state = .initiationConsumed
  localIndex : (b₁.handshake pb).localIndex = 0
  remoteIndex : (b₁.handshake pb).remoteIndex = i
  remoteEphemeral : (b₁.handshake pb).remoteEphemeral = c.publicKey draws.ephemeralA
  remoteStatic : (b₁.handshake pb).remoteStatic = a.publicKey
  presharedKey : (b₁.handshake pb).presharedKey = pskB
  transcript : (b₁.handshake pb).transcript = (pairedInitiation c a b draws).2

theorem initiation_consumed (hc : c.Lawful) (hpaired : Paired c a b pa pb pskA pskB)
    (hstamp : 0 < tai64nStamp draws.nowA) (i : BitVec 32) : ∃ b₁, b.consumeMessageInitiation c
        (initiationMessage (pairedInitiation c a b draws).1 messageInitiationType i) draws.nowB =
          (b₁, some pb) ∧ ConsumedB c a b pb pskB draws i b₁ := by
  have hhandshake : b.handshake pb = (newPeer c b.privateKey a.publicKey pskB).handshake :=
    congrArg NoisePeer.handshake hpaired.peer_b
  have hss : sharedSecret c b.privateKey (c.publicKey draws.ephemeralA) =
      some (c.scalarMult draws.ephemeralA b.publicKey) := by
    rw [hpaired.publicKey_b, sharedSecret_publicKey hc, hc.scalarMult_comm]
  have hpre : (b.handshake pb).precomputedStaticStatic = c.scalarMult a.privateKey b.publicKey := by
    rw [hhandshake]
    show c.scalarMult b.privateKey a.publicKey = _
    rw [hpaired.publicKey_a, hpaired.publicKey_b, hc.scalarMult_comm]
  have hzero : c.isZero (c.scalarMult a.privateKey b.publicKey) = false := by
    rw [hpaired.publicKey_b]
    exact hc.scalarMult_ne_zero _ _
  set msg := initiationMessage (pairedInitiation c a b draws).1 messageInitiationType i with hmsg
  have hbody : (⟨msg.ephemeral, msg.static, msg.timestamp⟩ : InitiationBody M) =
      (pairedInitiation c a b draws).1 := rfl
  obtain ⟨t, hstatic, htimestamp⟩ := open_initiationOf hc hss hpre hzero hbody
  have hrunning : (b.peer pb).isRunning = true := by rw [hpaired.peer_b]; rfl
  have hlast : (b.handshake pb).lastTimestamp = 0 := by rw [hhandshake]; rfl
  have hconsumption : (b.handshake pb).lastInitiationConsumption = none := by rw [hhandshake]; rfl
  have hopen : b.openInitiation c msg =
      some (pb, tai64nStamp draws.nowA, (pairedInitiation c a b draws).2) := by
    rw [openInitiation, hstatic]
    simp only [bind_eq_bind, bind_some, hpaired.lookup, hrunning, if_true, htimestamp]
    rfl
  -- a fresh peer has seen no timestamp and no initiation, so both checks pass
  have hcheck : b.checkInitiation c msg draws.nowB =
      some { peer := pb, msg, timestamp := tai64nStamp draws.nowA
             transcript := (pairedInitiation c a b draws).2 } := by
    have htype : msg.type = messageInitiationType := rfl
    rw [checkInitiation, if_neg (not_not.mpr htype), hopen]
    simp only [hlast, hconsumption, flood]
    rw [if_neg (not_not.mpr hstamp), if_neg Bool.false_ne_true]
  refine ⟨_, by rw [consumeMessageInitiation, hcheck], ?_⟩
  refine ⟨rfl, rfl, ?_, ?_, ?_, ?_, ?_, ?_, ?_⟩
  all_goals rw [commitInitiation, handshake_setHandshake, if_pos rfl]
  · exact congrArg localIndex hhandshake
  · rfl
  · rfl
  · exact congrArg remoteStatic hhandshake
  · exact congrArg presharedKey hhandshake
  · rfl

/-- The responder has made its response. -/
structure RespondedB (c : Primitives S M) (a b : NoiseDevice S M) (pb : ℕ) (pskB : M)
    (draws : HandshakeDraws S) (i j : BitVec 32) (b₂ : NoiseDevice S M) : Prop where
  state : (b₂.handshake pb).state = .responseCreated
  localIndex : (b₂.handshake pb).localIndex = j
  remoteIndex : (b₂.handshake pb).remoteIndex = i
  transcript : (b₂.handshake pb).transcript = (pairedResponse c a b draws pskB).2

theorem createMessageResponse_some {d : NoiseDevice S M} {p : ℕ} {e : S}
    {typeDraw : ℕ} {indices : List (BitVec 32)} {body : ResponseBody M}
    (hstate : (d.handshake p).state = .initiationConsumed)
    (htype : d.headers.response.generate typeDraw = some type)
    (hindex : (d.indexTable.delete (d.handshake p).localIndex).newIndexForHandshake p indices =
      some (i, (d.indexTable.delete (d.handshake p).localIndex).set i (.ofHandshake p)))
    (hbody : (({ d.handshake p with localIndex := i } : Handshake S M).createResponse c e).2 =
      some body) :
    d.createMessageResponse c p e typeDraw indices =
      some (d.assign p i
        (({ d.handshake p with localIndex := i } : Handshake S M).createResponse c e).1,
        some { type, sender := i, receiver := (d.handshake p).remoteIndex
               ephemeral := body.ephemeral, empty := body.empty }) := by
  have hframe := createResponse_frame c ({ d.handshake p with localIndex := i } : Handshake S M) e
  rcases hcreated : ({ d.handshake p with localIndex := i } : Handshake S M).createResponse c e with
    ⟨handshake, _ | body'⟩
  · rw [hcreated] at hbody
    cases hbody
  · rw [hcreated] at hbody hframe
    cases hbody
    have hremote : handshake.remoteIndex = (d.handshake p).remoteIndex :=
      (congrArg remoteIndex hframe :)
    rw [createMessageResponse, if_neg (not_not.mpr hstate)]
    simp only [hindex, htype, bind_eq_bind, bind_some, hcreated, hremote]
    rfl

theorem response_created (hc : c.Lawful) (hpaired : Paired c a b pa pb pskA pskB)
    {b₁ : NoiseDevice S M} (hb : ConsumedB c a b pb pskB draws i b₁)
    (htype : b.headers.response.generate draws.typeB = some type)
    (hfree : ∃ j ∈ draws.indicesB, b.indexTable.delete 0 j = none) :
    ∃ b₂ j, b₁.createMessageResponse c pb draws.ephemeralB draws.typeB draws.indicesB =
        some (b₂, some
          { type, sender := j, receiver := i
            ephemeral := (pairedResponse c a b draws pskB).1.ephemeral
            empty := (pairedResponse c a b draws pskB).1.empty }) ∧
      RespondedB c a b pb pskB draws i j b₂ := by
  rw [← hb.localIndex, ← hb.indexTable] at hfree
  obtain ⟨j, hindex⟩ := IndexTable.newIndexForHandshake_some hfree
  set handshake : Handshake S M := { b₁.handshake pb with localIndex := j }
  have hss : sharedSecret c draws.ephemeralB handshake.remoteEphemeral =
      some (c.scalarMult draws.ephemeralB (c.publicKey draws.ephemeralA)) := by
    show sharedSecret c draws.ephemeralB (b₁.handshake pb).remoteEphemeral = _
    rw [hb.remoteEphemeral]
    exact sharedSecret_publicKey hc _ _
  have hss' : sharedSecret c draws.ephemeralB handshake.remoteStatic =
      some (c.scalarMult draws.ephemeralB a.publicKey) := by
    show sharedSecret c draws.ephemeralB (b₁.handshake pb).remoteStatic = _
    rw [hb.remoteStatic, hpaired.publicKey_a]
    exact sharedSecret_publicKey hc _ _
  obtain ⟨hbody, htranscript⟩ := createResponse_eq hss hss'
  -- the handshake is the one that the initiation has left, with a new index
  have hmade : responseOf c handshake.transcript (c.publicKey draws.ephemeralB)
      (c.scalarMult draws.ephemeralB (c.publicKey draws.ephemeralA))
      (c.scalarMult draws.ephemeralB a.publicKey) handshake.presharedKey =
      pairedResponse c a b draws pskB := by
    have ht : handshake.transcript = (pairedInitiation c a b draws).2 := hb.transcript
    have hpsk : handshake.presharedKey = pskB := hb.presharedKey
    rw [ht, hpsk]
    rfl
  rw [hmade] at hbody htranscript
  have hframe := createResponse_frame c handshake draws.ephemeralB
  rw [← hb.headers] at htype
  have hcreated := createMessageResponse_some hb.state htype hindex hbody
  rw [hb.remoteIndex] at hcreated
  refine ⟨_, j, hcreated, ?_⟩
  refine ⟨?_, ?_, ?_, ?_⟩
  all_goals rw [assign, handshake_setHandshake, if_pos rfl]
  · rw [hframe, hbody]
    rfl
  · rw [hframe]
  · rw [hframe]
    exact hb.remoteIndex
  · exact htranscript

/-- The initiator has consumed the response. -/
structure ConsumedA (c : Primitives S M) (a b : NoiseDevice S M) (pa : ℕ) (pskB : M)
    (draws : HandshakeDraws S) (i j : BitVec 32) (a₂ : NoiseDevice S M) : Prop where
  state : (a₂.handshake pa).state = .responseConsumed
  localIndex : (a₂.handshake pa).localIndex = i
  remoteIndex : (a₂.handshake pa).remoteIndex = j
  transcript : (a₂.handshake pa).transcript = (pairedResponse c a b draws pskB).2

omit draws in
theorem checkResponse_received {draws : HandshakeDraws S} {a₁ : NoiseDevice S M}
    (ha : WaitsA c a b pa pskA draws i a₁) {msg : MessageResponse M}
    (htype : msg.type = messageResponseType) (hreceiver : msg.receiver = i) :
    a₁.checkResponse c msg = ((a₁.handshake pa).openResponse c a₁.privateKey msg).map
        fun transcript => { peer := pa, msg, transcript } := by
  have hentry : (a₁.indexTable.lookup msg.receiver).handshake = some pa := by
    rw [hreceiver, IndexTable.lookup, ha.entry]
    rfl
  simp only [checkResponse, htype, ne_eq, not_true_eq_false, if_false, hentry]
  cases (a₁.handshake pa).openResponse c a₁.privateKey msg <;> rfl

/-- The response of a paired device, as it is received. -/
def receivedResponse (c : Primitives S M) (a b : NoiseDevice S M) (draws : HandshakeDraws S)
    (presharedKey : M) (receiver sender : BitVec 32) : MessageResponse M :=
  { type := messageResponseType, sender, receiver
    ephemeral := (pairedResponse c a b draws presharedKey).1.ephemeral
    empty := (pairedResponse c a b draws presharedKey).1.empty }

section Response

variable (hc : c.Lawful) (hpaired : Paired c a b pa pb pskA pskB) {i : BitVec 32}
  {a₁ : NoiseDevice S M} (ha : WaitsA c a b pa pskA draws i a₁)
include hc hpaired ha

theorem response_secrets :
    sharedSecret c (a₁.handshake pa).localEphemeral (c.publicKey draws.ephemeralB) =
        some (c.scalarMult draws.ephemeralB (c.publicKey draws.ephemeralA)) ∧
      sharedSecret c a₁.privateKey (c.publicKey draws.ephemeralB) =
        some (c.scalarMult draws.ephemeralB a.publicKey) := by
  constructor
  · rw [ha.localEphemeral, sharedSecret_publicKey hc, hc.scalarMult_comm]
  · rw [ha.privateKey, sharedSecret_publicKey hc, hc.scalarMult_comm, hpaired.publicKey_a]

theorem response_opened (j : BitVec 32) :
    let opened :=
      (a₁.handshake pa).openResponse c a₁.privateKey (receivedResponse c a b draws pskB i j)
    (pskA = pskB → opened = some (pairedResponse c a b draws pskB).2) ∧
      (NoCollisions c → pskA ≠ pskB → opened = none) := by
  obtain ⟨hss, hss'⟩ := response_secrets draws hc hpaired ha
  have hopen := open_responseOf hc ha.state hss hss' pskB (receivedResponse c a b draws pskB i j)
    (by rw [ha.transcript]; rfl)
  rwa [ha.presharedKey, ha.transcript] at hopen

theorem response_consumed (hpsk : pskA = pskB) (j : BitVec 32) :
    ∃ a₂, a₁.consumeMessageResponse c (receivedResponse c a b draws pskB i j) = (a₂, some pa) ∧
      ConsumedA c a b pa pskB draws i j a₂ := by
  have hopen := (response_opened draws hc hpaired ha j).1 hpsk
  refine ⟨_, by rw [consumeMessageResponse, checkResponse_received ha rfl rfl, hopen]; rfl, ?_⟩
  refine ⟨?_, ?_, ?_, ?_⟩
  all_goals rw [commitResponse, handshake_setHandshake, if_pos rfl]
  · exact ha.localIndex
  · rfl
  · rfl

theorem response_rejected (hcollisions : NoCollisions c) (hpsk : pskA ≠ pskB) (j : BitVec 32) :
    (a₁.consumeMessageResponse c (receivedResponse c a b draws pskB i j)).2 = none := by
  rw [consumeMessageResponse, checkResponse_received ha rfl rfl,
    (response_opened draws hc hpaired ha j).2 hcollisions hpsk]
  rfl

end Response

end Stages

/-! ## §4 Agreement -/

/-- Two keypairs of one session: what one side sends under, the other receives under, and each side
knows the index of the other. -/
structure Crossed (k k' : Keypair M) : Prop where
  send : k.send = k'.receive
  receive : k.receive = k'.send
  localIndex : k.localIndex = k'.remoteIndex
  remoteIndex : k.remoteIndex = k'.localIndex

/-- Both sides begin a session, the initiator with its current keypair and the responder with its
next one, and the two keypairs belong together. -/
def SessionsAgree (c : Primitives S M) (a b : NoiseDevice S M) (pa pb startA startB : ℕ) : Prop :=
  ∃ a' b' ka kb, a.beginSymmetricSession c pa startA = (a', true) ∧
    b.beginSymmetricSession c pb startB = (b', true) ∧
    (a'.keypairs pa).current = some ka ∧ (b'.keypairs pb).next = some kb ∧
    Crossed (a'.keypair ka) (b'.keypair kb)

/-- A handshake from `a` to `b`.  The receiver replaces the ranged type of each message by the
canonical one. -/
def HandshakeAgrees (c : Primitives S M) (a b : NoiseDevice S M) (pa pb : ℕ) (pskA pskB : M)
    (draws : HandshakeDraws S) (startA startB : ℕ) : Prop :=
  ∃ a₁ initiation,
    a.createMessageInitiation c pa draws.ephemeralA draws.typeA draws.nowA draws.indicesA =
      some (a₁, some initiation) ∧
    ∃ b₁, b.consumeMessageInitiation c { initiation with type := messageInitiationType }
      draws.nowB =
        (b₁, some pb) ∧
      (a₁.handshake pa).transcript = (b₁.handshake pb).transcript ∧
      ∃ b₂ response, b₁.createMessageResponse c pb draws.ephemeralB draws.typeB draws.indicesB =
          some (b₂, some response) ∧
        (pskA = pskB →
          ∃ a₂, a₁.consumeMessageResponse c { response with type := messageResponseType } =
              (a₂, some pa) ∧
            (a₂.handshake pa).transcript = (b₂.handshake pb).transcript ∧
            (a₂.handshake pa).remoteIndex = (b₂.handshake pb).localIndex ∧
            (b₂.handshake pb).remoteIndex = (a₂.handshake pa).localIndex ∧
            SessionsAgree c a₂ b₂ pa pb startA startB) ∧
        (pskA ≠ pskB →
          (a₁.consumeMessageResponse c { response with type := messageResponseType }).2 = none)

/-- A consumed message that gives no peer leaves every handshake as it was. -/
def UnchangedOnNil (c : Primitives S M) (d : NoiseDevice S M) : Prop :=
  (∀ msg now, (d.consumeMessageInitiation c msg now).2 = none →
      ∀ p, (d.consumeMessageInitiation c msg now).1.handshake p = d.handshake p) ∧
    ∀ msg, (d.consumeMessageResponse c msg).2 = none →
      ∀ p, (d.consumeMessageResponse c msg).1.handshake p = d.handshake p

theorem unchangedOnNil (c : Primitives S M) (d : NoiseDevice S M) : UnchangedOnNil c d := by
  constructor
  · intro msg now hnil p
    unfold consumeMessageInitiation at hnil ⊢
    cases hcheck : d.checkInitiation c msg now with
    | none => rfl
    | some pending =>
      rw [hcheck] at hnil
      cases hnil
  · intro msg hnil p
    unfold consumeMessageResponse at hnil ⊢
    cases hcheck : d.checkResponse c msg with
    | none => rfl
    | some pending =>
      rw [hcheck] at hnil
      cases hnil

theorem beginSymmetricSession_keypair {c : Primitives S M} {d : NoiseDevice S M} {p : ℕ}
    {keys : SessionKeys M} (hkeys : (d.handshake p).deriveKeys c = some keys) (now : ℕ) :
    ∃ d', d.beginSymmetricSession c p now = (d', true) ∧
      (if keys.isInitiator then (d'.keypairs p).current else (d'.keypairs p).next) =
        some d.nextKeypair ∧ d'.keypair d.nextKeypair = newKeypair (d.handshake p) keys now := by
  refine ⟨_, beginSymmetricSession_some hkeys now, ?_, update_self ..⟩
  simp only [keypairs, update_self]
  cases hrole : keys.isInitiator with
  | true => exact rotate_current _ _
  | false => rfl

/-- Equal chain keys give one session; the roles decide which key is for which direction. -/
theorem sessions_agree {c : Primitives S M} {a b : NoiseDevice S M} {pa pb : ℕ}
    (hstateA : (a.handshake pa).state = .responseConsumed)
    (hstateB : (b.handshake pb).state = .responseCreated)
    (htranscript : (a.handshake pa).transcript = (b.handshake pb).transcript)
    (hremoteA : (a.handshake pa).remoteIndex = (b.handshake pb).localIndex)
    (hremoteB : (b.handshake pb).remoteIndex = (a.handshake pa).localIndex) (startA startB : ℕ) :
    SessionsAgree c a b pa pb startA startB := by
  have hchain : (a.handshake pa).chainKey = (b.handshake pb).chainKey :=
    congrArg Transcript.chainKey htranscript
  have hkeysA : (a.handshake pa).deriveKeys c =
      some { send := (kdf2 c (a.handshake pa).chainKey (c.text [])).1
             receive := (kdf2 c (a.handshake pa).chainKey (c.text [])).2
             isInitiator := true } := by
    rw [deriveKeys, hstateA]
  have hkeysB : (b.handshake pb).deriveKeys c =
      some { send := (kdf2 c (a.handshake pa).chainKey (c.text [])).2
             receive := (kdf2 c (a.handshake pa).chainKey (c.text [])).1
             isInitiator := false } := by
    rw [deriveKeys, hstateB, hchain]
  obtain ⟨a', hbeginA, hslotA, hkeypairA⟩ := beginSymmetricSession_keypair hkeysA startA
  obtain ⟨b', hbeginB, hslotB, hkeypairB⟩ := beginSymmetricSession_keypair hkeysB startB
  refine ⟨a', b', _, _, hbeginA, hbeginB, hslotA, hslotB, ?_⟩
  rw [hkeypairA, hkeypairB]
  exact ⟨rfl, rfl, hremoteB.symm, hremoteA⟩

section Handshake

variable {c : Primitives S M} {a b : NoiseDevice S M} {pa pb : ℕ} {pskA pskB : M}
  {draws : HandshakeDraws S}

theorem handshake_agrees (hc : c.Lawful) (hcollisions : NoCollisions c)
    (hpaired : Paired c a b pa pb pskA pskB) (hstamp : 0 < tai64nStamp draws.nowA)
    (hfreeA : ∃ i ∈ draws.indicesA, a.indexTable.delete 0 i = none)
    (hfreeB : ∃ i ∈ draws.indicesB, b.indexTable.delete 0 i = none)
    {typeA typeB : BitVec 32} (htypeA : a.headers.init.generate draws.typeA = some typeA)
    (htypeB : b.headers.response.generate draws.typeB = some typeB) (startA startB : ℕ) :
    HandshakeAgrees c a b pa pb pskA pskB draws startA startB := by
  obtain ⟨a₁, i, hcreate, hwaits⟩ := initiation_created draws hc hpaired htypeA hfreeA
  obtain ⟨b₁, hconsume, hconsumed⟩ := initiation_consumed draws hc hpaired hstamp i
  obtain ⟨b₂, j, hrespond, hresponded⟩ := response_created draws hc hpaired hconsumed htypeB hfreeB
  refine ⟨a₁, _, hcreate, b₁, hconsume, hwaits.transcript.trans hconsumed.transcript.symm, b₂, _,
    hrespond, fun hpsk => ?_, fun hpsk =>
      response_rejected draws hc hpaired hwaits hcollisions hpsk j⟩
  obtain ⟨a₂, hfinish, ha₂⟩ := response_consumed draws hc hpaired hwaits hpsk j
  have htranscript := ha₂.transcript.trans hresponded.transcript.symm
  have hremoteA := ha₂.remoteIndex.trans hresponded.localIndex.symm
  have hremoteB := hresponded.remoteIndex.trans ha₂.localIndex.symm
  exact ⟨a₂, hfinish, htranscript, hremoteA, hremoteB,
    sessions_agree ha₂.state hresponded.state htranscript hremoteA hremoteB startA startB⟩

/-- Without a type for its initiation a device panics. -/
theorem createMessageInitiation_panics (htype : a.headers.init.generate draws.typeA = none) :
    a.createMessageInitiation c pa draws.ephemeralA draws.typeA draws.nowA draws.indicesA =
      none := by
  rw [createMessageInitiation, htype]
  rfl

/-- Without a type for its response a device does not make one. -/
theorem createMessageResponse_panics (htype : b.headers.response.generate draws.typeB = none)
    (b' : NoiseDevice S M) (response : MessageResponse M) :
    b.createMessageResponse c pb draws.ephemeralB draws.typeB draws.indicesB ≠
      some (b', some response) := by
  intro h
  unfold createMessageResponse at h
  by_cases hstate : (b.handshake pb).state = .initiationConsumed
  · rw [if_neg (not_not.mpr hstate), htype] at h
    obtain ⟨_, _, h⟩ := bind_eq_some_iff.mp h
    cases h
  · rw [if_pos hstate] at h
    cases h

/-- A handshake between two fresh peers succeeds, with equal transcripts and crossed keys and
indices, or fails at the last message for different preshared keys, exactly when neither side draws
its message type from the range of all values.  The clock and the random source are outside the
program: the clock is within 2^62 seconds from its epoch, and a free index is drawn in the end. -/
theorem handshake_agreement_iff (hc : c.Lawful) (hcollisions : NoCollisions c)
    (hpaired : Paired c a b pa pb pskA pskB)
    (hclock : -2 ^ 62 ≤ draws.nowA / 10 ^ 9 ∧ draws.nowA / 10 ^ 9 < 2 ^ 62)
    (hfreeA : ∃ i ∈ draws.indicesA, a.indexTable.delete 0 i = none)
    (hfreeB : ∃ i ∈ draws.indicesB, b.indexTable.delete 0 i = none) (startA startB : ℕ) :
    (HandshakeAgrees c a b pa pb pskA pskB draws startA startB ∧
        ∀ d : NoiseDevice S M, UnchangedOnNil c d) ↔
      ¬a.headers.init.IsFull ∧ ¬b.headers.response.IsFull := by
  constructor
  · rintro ⟨⟨a₁, initiation, hcreate, b₁, hconsume, -, b₂, response, hrespond, -⟩, -⟩
    constructor
    · -- a range of all values has no draw: the size of the range wraps to zero
      intro hfull
      rw [createMessageInitiation_panics
        ((MagicHeader.generate_eq_none_iff _ _).mpr hfull)] at hcreate
      cases hcreate
    · intro hfull
      have hheaders : b₁.headers = b.headers := by
        have hfst : b₁ = (b.consumeMessageInitiation c _ draws.nowB).1 :=
          (congrArg Prod.fst hconsume).symm
        rw [hfst, consumeMessageInitiation]
        cases b.checkInitiation c _ draws.nowB <;> rfl
      rw [← hheaders] at hfull
      exact createMessageResponse_panics ((MagicHeader.generate_eq_none_iff _ _).mpr hfull)
        _ _ hrespond
  · rintro ⟨hinit, hresponse⟩
    rw [← MagicHeader.generate_eq_none_iff _ draws.typeA, ← ne_eq, ne_none_iff_exists'] at hinit
    rw [← MagicHeader.generate_eq_none_iff _ draws.typeB, ← ne_eq, ne_none_iff_exists'] at hresponse
    obtain ⟨typeA, htypeA⟩ := hinit
    obtain ⟨typeB, htypeB⟩ := hresponse
    exact ⟨handshake_agrees hc hcollisions hpaired (tai64nStamp_pos hclock.1 hclock.2) hfreeA hfreeB
      htypeA htypeB startA startB, unchangedOnNil c⟩

end Handshake

/-- Draws and clocks of one handshake. -/
def symbolicDraws : HandshakeDraws ℕ :=
  { ephemeralA := 20, ephemeralB := 30, typeA := 0, typeB := 0, indicesA := [5], indicesB := [9]
    nowA := 0, nowB := 0 }

theorem symbolic_paired :
    Paired symbolic symbolicDevice symbolicPartner 2 1 (zeroed symbolic) (zeroed symbolic) :=
  ⟨rfl, rfl, rfl, rfl, rfl⟩

theorem handshake_agreement_symbolic :
    HandshakeAgrees symbolic symbolicDevice symbolicPartner 2 1 (zeroed symbolic) (zeroed symbolic)
      symbolicDraws 0 0 :=
  ((handshake_agreement_iff symbolic_lawful symbolic_noCollisions symbolic_paired (by decide)
    ⟨5, by decide, by decide⟩ ⟨9, by decide, by decide⟩ 0 0).mpr (by
      constructor <;> (rintro ⟨hstart, -⟩; revert hstart; decide))).1

/-- The range of all values is a header that is accepted, and an initiator that has it panics. -/
theorem full_header_panics :
    ∃ full, newMagicHeader (ascii "0-4294967295") = .ok full ∧
      let device := { symbolicDevice with headers := { Headers.default with init := full } }
      Paired symbolic device symbolicPartner 2 1 (zeroed symbolic) (zeroed symbolic) ∧
        ∀ e typeDraw now draws, device.createMessageInitiation symbolic 2 e typeDraw now draws =
          none := by
  refine ⟨⟨0, 0xffffffff, by decide⟩, by decide +kernel, ⟨rfl, rfl, rfl, rfl, rfl⟩, ?_⟩
  intro e typeDraw now draws
  rfl

end NoiseDevice

end AmneziaWG.Device
