import AmneziaWG.Device.Noise.Agreement
import AmneziaWG.Device.Receive

/-!
# From the Handshake to the Data Path

A transport message is decrypted with the keypair found under its receiver index.  Behind a
handshake both sides find the matching one.

## Main results

- `tunnel_established`: the keypairs of a handshake match, in both directions, until they expire.
-/

namespace AmneziaWG.Device

open AmneziaWG.Lib List Option

namespace NoiseDevice

variable {S M : Type} {c : Primitives S M} {a b d d' : NoiseDevice S M} {pa pb p k : ℕ} {psk : M}
  {draws : HandshakeDraws S}

/-- A state after handshake operations on any peers, without a draw of 0. -/
def Reachable (c : Primitives S M) (d : NoiseDevice S M) : Prop :=
  ∃ d₀ ops, d₀.Fresh ∧ (∀ op ∈ ops, 0 ∉ HandshakeOp.draws op) ∧ runFrom (step c) d₀ ops = some d

theorem Reachable.inv (h : d.Reachable c) : d.registry.Inv ∧ d.NoZero := by
  obtain ⟨d₀, ops, hfresh, hdraws, hrun⟩ := h
  exact noZero_of_run ⟨hfresh.inv, hfresh.noZero⟩ hdraws hrun

/-- The keypair in a slot is found by the index that the other side knows. -/
theorem Crossed.holds {sender : Keypair M} (hcrossed : Crossed sender (d.keypair k))
    (h : d.registry.Inv ∧ d.NoZero) (hslot : (d.keypairs p).Has k) {now : ℕ}
    (hnow : now ≤ (d.keypair k).created + rejectAfterTime) :
    HoldsMatching d.indexTable d.keypair now sender p k := by
  have hstored : d.indexTable (d.keypair k).localIndex = some (.ofKeypair p k) :=
    h.1.slot p k hslot (h.2.registry.keypair p k hslot)
  have hentry : d.indexTable.lookup sender.remoteIndex = .ofKeypair p k := by
    rw [hcrossed.remoteIndex, IndexTable.lookup, hstored]
    rfl
  exact ⟨by rw [hentry]; rfl, by rw [hentry]; rfl, hcrossed.send.symm, hnow⟩

/-- The messages of a handshake are exchanged.  The initiator then has a current keypair, the
responder one that waits to be received with, and each finds its own by the messages of the other,
until it expires. -/
def Established (c : Primitives S M) (a b : NoiseDevice S M) (pa pb : ℕ) (draws : HandshakeDraws S)
    (startA startB : ℕ) : Prop :=
  ∃ a₁ initiation b₁ b₂ response a₂ a' b' ka kb,
    a.createMessageInitiation c pa draws.ephemeralA draws.typeA draws.nowA draws.indicesA =
      some (a₁, some initiation) ∧
    b.consumeMessageInitiation c { initiation with type := messageInitiationType } draws.nowB =
      (b₁, some pb) ∧
    b₁.createMessageResponse c pb draws.ephemeralB draws.typeB draws.indicesB =
      some (b₂, some response) ∧
    a₁.consumeMessageResponse c { response with type := messageResponseType } = (a₂, some pa) ∧
    a₂.beginSymmetricSession c pa startA = (a', true) ∧
    b₂.beginSymmetricSession c pb startB = (b', true) ∧
    (a'.keypairs pa).current = some ka ∧ (b'.keypairs pb).next = some kb ∧
    (∀ now ≤ (b'.keypair kb).created + rejectAfterTime,
      HoldsMatching b'.indexTable b'.keypair now (a'.keypair ka) pb kb) ∧
    ∀ now ≤ (a'.keypair ka).created + rejectAfterTime,
      HoldsMatching a'.indexTable a'.keypair now (b'.keypair kb) pa ka

/-- **A handshake establishes a tunnel**: two devices with a new peer for each other, whatever they
did with other peers, complete it and then hold the keypairs for each other's messages. -/
theorem tunnel_established (hc : c.Lawful) (hcollisions : NoCollisions c) (hA : a.Reachable c)
    (hB : b.Reachable c) (hpaired : Paired c a b pa pb psk psk)
    (hstamp : 0 < tai64nStamp draws.nowA)
    (hfreeA : ∃ i ∈ draws.indicesA, a.indexTable.delete 0 i = none)
    (hfreeB : ∃ i ∈ draws.indicesB, b.indexTable.delete 0 i = none)
    (hzero : 0 ∉ draws.indicesA ∧ 0 ∉ draws.indicesB)
    {typeA typeB : BitVec 32} (htypeA : a.headers.init.generate draws.typeA = some typeA)
    (htypeB : b.headers.response.generate draws.typeB = some typeB) (startA startB : ℕ) :
    Established c a b pa pb draws startA startB := by
  obtain ⟨a₁, initiation, hcreate, b₁, hconsume, -, b₂, response, hrespond, hsame, -⟩ :=
    handshake_agrees hc hcollisions hpaired hstamp hfreeA hfreeB htypeA htypeB startA startB
  obtain ⟨a₂, hfinish, -, -, -, a', b', ka, kb, hbeginA, hbeginB, hslotA, hslotB, hcrossed⟩ :=
    hsame rfl
  -- each side runs three operations, which draw no index 0
  have hrunA :
    runFrom (step c) a [.createMessageInitiation pa draws.ephemeralA draws.typeA draws.nowA
      draws.indicesA, .consumeMessageResponse { response with type := messageResponseType },
      .beginSymmetricSession pa startA] = some a' := by
    simp [runFrom, step, hcreate, hfinish, hbeginA]
  have hrunB : runFrom (step c) b [.consumeMessageInitiation
      { initiation with type := messageInitiationType } draws.nowB, .createMessageResponse pb
      draws.ephemeralB draws.typeB draws.indicesB, .beginSymmetricSession pb startB] = some b' := by
    simp [runFrom, step, hconsume, hrespond, hbeginB]
  have hinvA := noZero_of_run hA.inv (by simpa [HandshakeOp.draws] using hzero.1) hrunA
  have hinvB := noZero_of_run hB.inv (by simpa [HandshakeOp.draws] using hzero.2) hrunB
  have hback : Crossed (b'.keypair kb) (a'.keypair ka) :=
    ⟨hcrossed.receive.symm, hcrossed.send.symm, hcrossed.remoteIndex.symm, hcrossed.localIndex.symm⟩
  -- the initiator's keypair is the current one, the responder's waits to be confirmed
  refine ⟨a₁, initiation, b₁, b₂, response, a₂, a', b', ka, kb, hcreate, hconsume, hrespond,
    hfinish, hbeginA, hbeginB, hslotA, hslotB, fun _ hnow => ?_, fun _ hnow => ?_⟩
  · exact hcrossed.holds hinvB (Or.inr (Or.inr hslotB)) hnow
  · exact hback.holds hinvA (Or.inl hslotA) hnow

/-- Both have begun handshakes with other peers before. -/
theorem tunnel_established_symbolic : ∃ a b,
    runFrom (step symbolic) symbolicDevice [.createMessageInitiation 3 10 0 0 [7],
      .expireCurrentKeypairs 3 0, .createMessageInitiation 4 11 0 0 [7, 8]] = some a ∧
    runFrom (step symbolic) symbolicPartner [.createMessageInitiation 3 12 0 0 [5]] = some b ∧
    Established symbolic a b 2 1 symbolicDraws 0 0 := by
  have hrun : ∃ a b,
      runFrom (step symbolic) symbolicDevice [.createMessageInitiation 3 10 0 0 [7],
        .expireCurrentKeypairs 3 0, .createMessageInitiation 4 11 0 0 [7, 8]] = some a ∧
      runFrom (step symbolic) symbolicPartner [.createMessageInitiation 3 12 0 0 [5]] = some b ∧
      Paired symbolic a b 2 1 (zeroed symbolic) (zeroed symbolic) ∧
      a.indexTable.delete 0 5 = none ∧ b.indexTable.delete 0 9 = none ∧
      a.headers = Headers.default ∧ b.headers = Headers.default :=
    ⟨_, _, rfl, rfl, ⟨rfl, rfl, rfl, rfl, rfl⟩, rfl, rfl, rfl, rfl⟩
  obtain ⟨a, b, ha, hb, hpaired, hfreeA, hfreeB, hheadersA, hheadersB⟩ := hrun
  have hreachA : a.Reachable symbolic :=
    ⟨_, _, symbolicDevice_fresh, by simp [HandshakeOp.draws], ha⟩
  have hreachB : b.Reachable symbolic :=
    ⟨_, _, ⟨rfl, fun _ => rfl, fun _ => rfl, fun _ => rfl⟩, by simp [HandshakeOp.draws], hb⟩
  exact ⟨a, b, ha, hb, tunnel_established symbolic_lawful symbolic_noCollisions hreachA hreachB
    hpaired (by decide) ⟨5, by decide, hfreeA⟩ ⟨9, by decide, hfreeB⟩ (by decide)
    (by rw [hheadersA]; rfl) (by rw [hheadersB]; rfl) 0 0⟩

end NoiseDevice

end AmneziaWG.Device
