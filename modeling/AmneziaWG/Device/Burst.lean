import AmneziaWG.Conn.Send
import AmneziaWG.Device.Classify
import AmneziaWG.Device.Obf.Packets
import AmneziaWG.Device.Uapi.Configured

/-!
# The Burst before a Handshake

Embedding of the part of `SendHandshakeInitiation` (`device/send.go`) that makes the buffers of one
call of `Bind.Send`: the I-packets, the junk packets and the padded initiation.  `none` is a panic.

`jc`, `jmin` and `jmax` are checked one by one when they are set.  So the least size can be above
the largest one, which is `0` when it has not been set, and the number of packets has no limit.

## Main results

- `Configured.junkSent_iff`: the junk loop keeps to its bounds if and only if they are in order.
- `Configured.burstFits_iff`: a burst fits the pooled array of a bind if and only if it is not made
  of more buffers than the array has messages.
-/

set_option linter.dupNamespace false

namespace AmneziaWG.Device

open AmneziaWG.Lib AmneziaWG.Conn List Option

/-! ## §1 The buffers -/

/-- What a burst takes from outside: for the tags of the I-packets, for the sizes and the bytes of
the junk packets, and for the padding.  `counter` is the junk counter before the burst. -/
structure BurstDraws where
  chain : Fin 5 → ℕ → Draws
  size : ℕ → ℕ
  junk : ℕ → ℕ → Byte
  padding : ℕ → Byte
  counter : BitVec 64

namespace Device

variable {B E : Type}
variable {draws : BurstDraws} {bufs : List Bytes} {packet : Bytes}

/-- The loop over `ipackets`. -/
def ipacketsFrom (crypto : QuicCrypto) (d : Device B E) (draws : BurstDraws) :
    List (Fin 5) → Option (List Bytes)
  | [] => some []
  | i :: rest =>
    match d.ipackets i with
    | none => ipacketsFrom crypto d draws rest
    | some chain => do
      let buf ← makeBytes (chain.obfuscatedLen 0)
      let buf ← chain.obfuscate crypto (draws.chain i) buf []
      let bufs ← ipacketsFrom crypto d draws rest
      return buf :: bufs

/-- One round of the junk loop. -/
def junkPacket (d : Device B E) (draws : BurstDraws) (i : ℕ) : Option Bytes := do
  let nBig ← randInt (draws.size i) (wrapInt 64 (wrapInt 64 (d.junk.max - d.junk.min) + 1))
  let buf ← makeBytes (wrapInt 64 (nBig + d.junk.min))
  fillJunk 64 d.imitate (draws.junk i) (draws.counter + BitVec.ofNat 64 (i + 1)) buf

/-- The junk loop, from round `i` on. -/
def junkFrom (d : Device B E) (draws : BurstDraws) : ℕ → ℕ → Option (List Bytes)
  | _, 0 => some []
  | i, rounds + 1 => do
    let buf ← d.junkPacket draws i
    let bufs ← junkFrom d draws (i + 1) rounds
    return buf :: bufs

def junkPackets (d : Device B E) (draws : BurstDraws) : Option (List Bytes) :=
  d.junkFrom draws 0 d.junk.count.toNat

/-- The initiation with its padding. -/
def padInitiation (d : Device B E) (draws : BurstDraws) (packet : Bytes) : Option Bytes :=
  let padding := d.paddings.init
  if 0 < padding then do
    let buf ← makeBytes (wrapInt 64 (padding + packet.length))
    let buf ← onSlice buf padding buf.length fun part => some (copyBytes part packet)
    fillPadding 64 d.imitate draws.padding buf padding.toNat
  else some packet

/-- The buffers that are handed to `SendBuffers`; `packet` is the initiation with its MACs. -/
def handshakeBurst (crypto : QuicCrypto) (d : Device B E) (draws : BurstDraws) (packet : Bytes) :
    Option (List Bytes) := do
  let ipackets ← d.ipacketsFrom crypto draws (List.finRange 5)
  let junk ← d.junkPackets draws
  let packet ← d.padInitiation draws packet
  return ipackets ++ junk ++ [packet]

/-! ## §2 The settings in force -/

/-- The settings of a device that requests have configured; every I-packet has been one line. -/
def BurstValid (o : Obfuscation) : Prop :=
  SettingsValid (fun line => line.length < maxScanTokenSize) o

theorem Configured.burstValid {env : Env B E} {ok : Bytes → Prop} {d : Device B E}
    (h : Configured env ok d) :
    BurstValid d.obfuscation := by
  refine h.settingsValid fun uapiConf _ line hline => ?_
  exact (mem_scanLinesFrom not_mem_nil (by decide) (takeWhile_subset _ hline)).2

/-! ## §3 Junk packets -/

theorem fillJunk_length (proto : ImitateProto) (random : ℕ → Byte) (counter : BitVec 64)
    (buf : Bytes) :
    ∃ out, fillJunk 64 proto random counter buf = some out ∧ out.length = buf.length := by
  unfold fillJunk
  by_cases hproto : proto = .none
  · rw [if_neg (not_not.mpr hproto)]
    exact ⟨_, rfl, by rw [randRead, length_map, length_range]⟩
  · obtain ⟨filler, hlen, hfill⟩ :=
      imitateFillWhole_part buf.length (imitateJunkSeed counter) hproto
    rw [if_pos hproto]
    exact ⟨filler, hfill buf rfl, hlen⟩

/-- The size of a junk packet, as a draw selects it. -/
def junkSize (d : Device B E) (draw : ℕ) : ℤ := draw % (d.junk.max - d.junk.min + 1) + d.junk.min

theorem junkSize_bounds {d : Device B E} (hle : d.junk.min ≤ d.junk.max) (draw : ℕ) :
    d.junk.min ≤ d.junkSize draw ∧ d.junkSize draw ≤ d.junk.max := by
  have hge := Int.emod_nonneg (draw : ℤ) (by omega : d.junk.max - d.junk.min + 1 ≠ 0)
  have hlt := Int.emod_lt_of_pos (draw : ℤ) (by omega : 0 < d.junk.max - d.junk.min + 1)
  unfold junkSize
  omega

theorem junkSize_max {d : Device B E} (hle : d.junk.min ≤ d.junk.max) :
    d.junkSize (d.junk.max - d.junk.min).toNat = d.junk.max := by
  rw [junkSize, Int.toNat_of_nonneg (by omega), Int.emod_eq_of_lt (by omega) (by omega)]
  omega

theorem junkSize_zero (d : Device B E) : d.junkSize 0 = d.junk.min := by
  rw [junkSize, Nat.cast_zero, Int.zero_emod, zero_add]

variable {d : Device B E}

theorem junkPacket_eq (hd : BurstValid d.obfuscation) (hle : d.junk.min ≤ d.junk.max)
    (hint : d.junk.max - d.junk.min + 1 < 2 ^ 63) (draws : BurstDraws) (i : ℕ)
    (halloc : d.junkSize (draws.size i) ≤ maxAlloc) :
    ∃ buf, d.junkPacket draws i = some buf ∧ (buf.length : ℤ) = d.junkSize (draws.size i) := by
  have hmin : 0 ≤ d.junk.min := hd.min.1
  have hmax : d.junk.max < 2 ^ 63 := hd.max.2
  have hsize := junkSize_bounds hle (draws.size i)
  obtain ⟨buf, hmake, hlen⟩ := makeBytes_eq (by omega : 0 ≤ d.junkSize (draws.size i)) halloc
  obtain ⟨out, hfill, hout⟩ := fillJunk_length d.imitate (draws.junk i)
    (draws.counter + BitVec.ofNat 64 (i + 1)) buf
  refine ⟨out, ?_, hout ▸ hlen⟩
  have hbound : wrapInt 64 (wrapInt 64 (d.junk.max - d.junk.min) + 1) =
      d.junk.max - d.junk.min + 1 := by
    rw [wrapInt_of_lt (by omega : 0 ≤ d.junk.max - d.junk.min) (by omega),
      wrapInt_of_lt (by omega) hint]
  rw [junkPacket, hbound, randInt, if_pos (by omega)]
  simp only [bind_eq_bind, bind_some]
  change (makeBytes (wrapInt 64 (d.junkSize (draws.size i)))).bind _ = some out
  rw [wrapInt_of_lt (by omega) (by omega), hmake, bind_some, hfill]

theorem of_junkPacket (hd : BurstValid d.obfuscation) {i : ℕ} {buf : Bytes}
    (h : d.junkPacket draws i = some buf) :
    d.junk.min ≤ d.junk.max ∧ d.junk.max - d.junk.min + 1 < 2 ^ 63 ∧
    d.junkSize (draws.size i) ≤ maxAlloc := by
  have hmin : 0 ≤ d.junk.min ∧ d.junk.min < 2 ^ 63 := hd.min
  have hmax : 0 ≤ d.junk.max ∧ d.junk.max < 2 ^ 63 := hd.max
  obtain ⟨nBig, hrand, h⟩ := bind_eq_some_iff.mp h
  obtain ⟨buf', hmake, -⟩ := bind_eq_some_iff.mp h
  rw [wrapInt_eq (by omega : -2 ^ 63 ≤ d.junk.max - d.junk.min) (by omega)] at hrand
  unfold randInt at hrand
  split at hrand
  · next hpos =>
    -- the bound is positive, so the sum has not wrapped
    have hint : d.junk.max - d.junk.min + 1 < 2 ^ 63 := by
      by_contra hover
      have hneg := wrapInt_neg (v := d.junk.max - d.junk.min + 1) (by omega) (by omega)
      omega
    rw [wrapInt_eq (by omega) hint] at hrand hpos
    have hle : d.junk.min ≤ d.junk.max := by omega
    have hsize := junkSize_bounds hle (draws.size i)
    have hn : nBig + d.junk.min = d.junkSize (draws.size i) := by
      rw [← some.inj hrand]
      rfl
    rw [hn, wrapInt_of_lt (by omega) (by omega)] at hmake
    exact ⟨hle, hint, (of_makeBytes hmake).2.1⟩
  · cases hrand

theorem of_junkFrom {i rounds : ℕ} (h : d.junkFrom draws i rounds = some bufs) :
    bufs.length = rounds ∧ ∀ buf ∈ bufs, ∃ k, d.junkPacket draws k = some buf := by
  induction rounds generalizing i bufs with
  | zero =>
    cases h
    exact ⟨rfl, fun _ hmem => absurd hmem not_mem_nil⟩
  | succ rounds ih =>
    obtain ⟨buf, hbuf, h⟩ := bind_eq_some_iff.mp h
    obtain ⟨rest, hrest, h⟩ := bind_eq_some_iff.mp h
    cases h
    obtain ⟨hlen, hmem⟩ := ih hrest
    exact ⟨by rw [length_cons, hlen], forall_mem_cons.mpr ⟨⟨i, hbuf⟩, hmem⟩⟩

theorem exists_junkFrom (h : ∀ k, ∃ buf, d.junkPacket draws k = some buf) (i rounds : ℕ) :
    ∃ bufs, d.junkFrom draws i rounds = some bufs := by
  induction rounds generalizing i with
  | zero => exact ⟨[], rfl⟩
  | succ rounds ih =>
    obtain ⟨buf, hbuf⟩ := h i
    obtain ⟨rest, hrest⟩ := ih (i + 1)
    refine ⟨buf :: rest, ?_⟩
    rw [junkFrom, hbuf, bind_eq_bind, bind_some, hrest]
    rfl

/-- For every draw, the loop ends with `jc` packets between `jmin` and `jmax`. -/
def JunkSent (d : Device B E) : Prop :=
  ∀ draws : BurstDraws, ∃ bufs, d.junkPackets draws = some bufs ∧ (bufs.length : ℤ) = d.junk.count ∧
    ∀ buf ∈ bufs, d.junk.min ≤ (buf.length : ℤ) ∧ (buf.length : ℤ) ≤ d.junk.max

/-- **Junk packets keep to their bounds** if and only if there are none, or the bounds are in order
and the largest packet can be allocated. -/
theorem Configured.junkSent_iff {env : Env B E} {d : Device B E}
    (h : Configured env (fun _ => True) d) :
    d.JunkSent ↔ d.junk.count = 0 ∨ (d.junk.min ≤ d.junk.max ∧ d.junk.max ≤ maxAlloc) := by
  have hd := h.burstValid
  have hcount : 0 ≤ d.junk.count := hd.count.1
  have hmin : 0 ≤ d.junk.min := hd.min.1
  have hcast : ((d.junk.count.toNat : ℕ) : ℤ) = d.junk.count := Int.toNat_of_nonneg hcount
  constructor
  · intro hsent
    -- in every round the largest size is drawn
    obtain ⟨bufs, hbufs, hlen, -⟩ := hsent
      { chain := fun _ _ => { random := fun _ => 0, clock := 0, counter := 0 }
        size := fun _ => (d.junk.max - d.junk.min).toNat
        junk := fun _ _ => 0, padding := fun _ => 0, counter := 0 }
    cases bufs with
    | nil => exact Or.inl (by simpa using hlen.symm)
    | cons buf bufs =>
      obtain ⟨k, hk⟩ := (of_junkFrom hbufs).2 buf mem_cons_self
      obtain ⟨hle, -, halloc⟩ := of_junkPacket hd hk
      rw [junkSize_max hle] at halloc
      exact Or.inr ⟨hle, halloc⟩
  · rintro (hzero | ⟨hle, halloc⟩) draws
    · refine ⟨[], ?_, by simp [hzero], fun _ hmem => absurd hmem not_mem_nil⟩
      rw [junkPackets, hzero]
      rfl
    · have hint : d.junk.max - d.junk.min + 1 < 2 ^ 63 := by
        unfold maxAlloc at halloc
        omega
      have hpacket : ∀ k, ∃ buf, d.junkPacket draws k = some buf ∧
          (buf.length : ℤ) = d.junkSize (draws.size k) := fun k =>
        junkPacket_eq hd hle hint draws k (Int.le_trans (junkSize_bounds hle _).2 halloc)
      -- no draw makes a packet that is larger than the largest size
      obtain ⟨bufs, hbufs⟩ :=
        exists_junkFrom (fun k => (hpacket k).imp fun _ hbuf => hbuf.1) 0 d.junk.count.toNat
      obtain ⟨hlen, hmem⟩ := of_junkFrom hbufs
      refine ⟨bufs, hbufs, by rw [hlen, hcast], fun buf hbuf => ?_⟩
      obtain ⟨k, hk⟩ := hmem buf hbuf
      obtain ⟨buf', hbuf', hsize⟩ := hpacket k
      rw [hk] at hbuf'
      cases hbuf'
      rw [hsize]
      exact junkSize_bounds hle _

/-- Two packets of ten to twelve bytes. -/
theorem Configured.junkSent_two :
    let r := (newDevice () : Device Unit Unit).ipcSet quietEnv (ascii "jc=2\njmin=10\njmax=12\n\n")
    r.2 = none ∧ r.1.junk = { count := 2, min := 10, max := 12 } ∧ r.1.JunkSent := by
  intro r
  have haccepted : r.2 = none := by decide +kernel
  have hjunk : r.1.junk = { count := 2, min := 10, max := 12 } := by decide +kernel
  have hset : (newDevice () : Device Unit Unit).ipcSet quietEnv
    (ascii "jc=2\njmin=10\njmax=12\n\n") =
      (r.1, none) := Prod.ext rfl haccepted
  refine ⟨haccepted, hjunk, (junkSent_iff (.set (.new ()) trivial hset)).mpr (Or.inr ?_)⟩
  rw [hjunk]
  decide

/-- With `jmin` alone, the bound of the draw is negative. -/
theorem junk_bounds_unordered :
    let r := (newDevice () : Device Unit Unit).ipcSet quietEnv (ascii "jc=1\njmin=5\n\n")
    r.2 = none ∧ r.1.junk = { count := 1, min := 5, max := 0 } ∧
      ∀ draws, r.1.junkPackets draws = none := by
  intro r
  have hjunk : r.1.junk = { count := 1, min := 5, max := 0 } := by decide +kernel
  refine ⟨by decide +kernel, hjunk, fun draws => ?_⟩
  have hpacket : r.1.junkPacket draws 0 = none := by
    rw [junkPacket, hjunk]
    rfl
  rw [junkPackets, hjunk]
  show r.1.junkFrom draws 0 1 = none
  rw [junkFrom, hpacket]
  rfl

/-! ## §4 The other buffers -/

theorem padInitiation_eq (hd : BurstValid d.obfuscation)
    (hpad : d.paddings.init + messageInitiationSize ≤ maxAlloc)
    (draws : BurstDraws) (hpacket : packet.length = messageInitiationSize) :
    ∃ out, d.padInitiation draws packet = some out := by
  have hnonneg : 0 ≤ d.paddings.init := (hd.paddings .init).1
  have hsize : (0 : ℤ) < messageInitiationSize := by decide
  have hmax : maxAlloc < 2 ^ 63 := by decide
  unfold padInitiation
  dsimp only
  split
  · next hpos =>
    rw [hpacket, wrapInt_of_lt (by omega) (by omega)]
    obtain ⟨buf, hmake, hlen⟩ := makeBytes_eq
      (by omega : 0 ≤ d.paddings.init + (messageInitiationSize : ℤ)) (by omega)
    rw [hmake, bind_eq_bind, bind_some, onSlice, if_pos (by omega), map_some, bind_some]
    obtain ⟨filler, -, hfill⟩ := fillPadding_eq d.imitate draws.padding
      (by omega : 0 < d.paddings.init.toNat)
      (by
        rw [length_append, length_append, length_take, copyBytes_length, length_take,
          length_drop, length_drop]
        omega : d.paddings.init.toNat < (buf.take d.paddings.init.toNat ++
          (copyBytes ((buf.drop d.paddings.init.toNat).take (buf.length - d.paddings.init).toNat)
            packet ++ buf.drop (buf.length : ℤ).toNat)).length)
    exact ⟨_, hfill⟩
  · exact ⟨packet, rfl⟩

theorem of_padInitiation (hd : BurstValid d.obfuscation) {out : Bytes}
    (hpacket : packet.length = messageInitiationSize)
    (h : d.padInitiation draws packet = some out) :
    d.paddings.init + messageInitiationSize ≤ maxAlloc := by
  have hpadding : 0 ≤ d.paddings.init ∧ d.paddings.init < 2 ^ 63 := hd.paddings .init
  have hsize : (messageInitiationSize : ℤ) = 148 := rfl
  unfold padInitiation at h
  dsimp only at h
  split at h
  · obtain ⟨buf, hmake, -⟩ := bind_eq_some_iff.mp h
    rw [hpacket] at hmake
    obtain ⟨hnonneg, halloc, -⟩ := of_makeBytes hmake
    have hint : d.paddings.init + (messageInitiationSize : ℤ) < 2 ^ 63 := by
      by_contra hover
      have hneg := wrapInt_neg (v := d.paddings.init + (messageInitiationSize : ℤ)) (by omega)
        (by omega)
      omega
    rwa [wrapInt_of_lt (by omega) hint] at halloc
  · have hzero : d.paddings.init = 0 := by omega
    rw [hzero]
    decide

def ipacketCount (d : Device B E) (slots : List (Fin 5)) : ℕ :=
  slots.countP fun i => (d.ipackets i).isSome

/-- An I-packet that can be made and allocated. -/
def ChainSendable (c : ObfChain) : Prop :=
  (∀ o ∈ c.obfs, 0 ≤ Obf.obfuscatedLen 0 o) ∧ totalLen c.obfs ≤ maxAlloc

theorem exists_ipacketsFrom (crypto : QuicCrypto) (hd : BurstValid d.obfuscation)
    (draws : BurstDraws)
    (h : ∀ i c, d.ipackets i = some c → ChainSendable c) (slots : List (Fin 5)) :
    ∃ bufs, d.ipacketsFrom crypto draws slots = some bufs := by
  induction slots with
  | nil => exact ⟨[], rfl⟩
  | cons i slots ih =>
    obtain ⟨bufs, hbufs⟩ := ih
    rw [ipacketsFrom]
    cases hc : d.ipackets i with
    | none => exact ⟨bufs, hbufs⟩
    | some c =>
      obtain ⟨hnonneg, halloc⟩ := h i c hc
      have hsum : totalLen c.obfs < 2 ^ 63 := Int.lt_of_le_of_lt halloc (by decide)
      have hbuilt := built_of_newObfChain (hd.ipackets i c hc).1
      have hsafe := ObfChain.safeToSend crypto hbuilt hnonneg hsum
      obtain ⟨buf, hmake, hlen⟩ := makeBytes_eq hsafe.nonneg
        (ObfChain.obfuscatedLen_eq hnonneg hsum ▸ halloc)
      obtain ⟨parts, -, hparts⟩ := hsafe.writes (draws.chain i)
      refine ⟨parts.flatten :: bufs, ?_⟩
      simp only [hmake, hparts buf hlen, hbufs, bind_eq_bind, bind_some]
      rfl

theorem of_ipacketsFrom {crypto : QuicCrypto} (hd : BurstValid d.obfuscation)
    {slots : List (Fin 5)} (h : d.ipacketsFrom crypto draws slots = some bufs) :
    bufs.length = d.ipacketCount slots ∧ ∀ i ∈ slots, ∀ c, d.ipackets i = some c →
    ChainSendable c := by
  induction slots generalizing bufs with
  | nil =>
    cases h
    exact ⟨rfl, fun _ hmem => absurd hmem not_mem_nil⟩
  | cons i slots ih =>
    rw [ipacketsFrom] at h
    rw [ipacketCount, countP_cons]
    cases hc : d.ipackets i with
    | none =>
      rw [hc] at h
      obtain ⟨hlen, hslots⟩ := ih h
      refine ⟨hlen, forall_mem_cons.mpr ⟨fun c hsome => ?_, hslots⟩⟩
      rw [hc] at hsome
      cases hsome
    | some c =>
      rw [hc] at h
      obtain ⟨buf, hmake, h⟩ := bind_eq_some_iff.mp h
      obtain ⟨buf', hwrite, h⟩ := bind_eq_some_iff.mp h
      obtain ⟨rest, hrest, h⟩ := bind_eq_some_iff.mp h
      cases h
      obtain ⟨hlen, hslots⟩ := ih hrest
      obtain ⟨hspec, hshort⟩ := hd.ipackets i c hc
      rw [uapiLine, length_append, length_cons] at hshort
      have hparsed := parsed_of_newObfChain hspec
      -- the spec came in one line, so that the length of a tag is an `int`
      have hint : ∀ o ∈ c.obfs, -2 ^ 63 ≤ Obf.obfuscatedLen 0 o ∧
          Obf.obfuscatedLen 0 o < 2 ^ 63 := by
        intro o ho
        have hline : maxScanTokenSize = 65536 := rfl
        have hlt := (hparsed o ho).lt_or_le
        exact ⟨(hparsed o ho).ge, by omega⟩
      obtain ⟨hnonneg, htotal⟩ := lengths_of_obfuscateFrom hint (Int.le_refl 0) (by decide) hwrite
      rw [zero_add] at htotal
      have halloc := (of_makeBytes hmake).2.1
      rw [ObfChain.obfuscatedLen_eq hnonneg htotal] at halloc
      refine ⟨by rw [length_cons, hlen]; rfl, forall_mem_cons.mpr ⟨fun c' hsome => ?_, hslots⟩⟩
      cases hc.symm.trans hsome
      exact ⟨hnonneg, halloc⟩

/-! ## §5 The whole burst -/

/-- The settings of which a burst can be made and allocated: there are draws for which nothing
panics. -/
structure Sendable (d : Device B E) : Prop where
  ipackets : ∀ i c, d.ipackets i = some c → ChainSendable c
  junk : 0 < d.junk.count → d.junk.min ≤ d.junk.max ∧ d.junk.max - d.junk.min + 1 < 2 ^ 63 ∧
    d.junk.min ≤ maxAlloc
  padding : d.paddings.init + messageInitiationSize ≤ maxAlloc

def burstLen (d : Device B E) : ℤ := d.ipacketCount (List.finRange 5) + d.junk.count + 1

theorem of_handshakeBurst {crypto : QuicCrypto} (hd : BurstValid d.obfuscation)
    (hpacket : packet.length = messageInitiationSize)
    (h : d.handshakeBurst crypto draws packet = some bufs) : (bufs.length : ℤ) = d.burstLen ∧
    d.Sendable := by
  have hcount : 0 ≤ d.junk.count := hd.count.1
  obtain ⟨ipackets, hipackets, h⟩ := bind_eq_some_iff.mp h
  obtain ⟨junk, hjunk, h⟩ := bind_eq_some_iff.mp h
  obtain ⟨out, hpad, h⟩ := bind_eq_some_iff.mp h
  cases h
  obtain ⟨hilen, hchains⟩ := of_ipacketsFrom hd hipackets
  obtain ⟨hjlen, hpackets⟩ := of_junkFrom hjunk
  constructor
  · rw [burstLen, length_append, length_append, hilen, hjlen, length_singleton]
    omega
  · refine ⟨fun i => hchains i (mem_finRange i), fun hpos => ?_, of_padInitiation hd hpacket hpad⟩
    cases junk with
    | nil =>
      rw [length_nil] at hjlen
      omega
    | cons buf junk =>
      obtain ⟨k, hk⟩ := hpackets buf mem_cons_self
      obtain ⟨hle, hint, halloc⟩ := of_junkPacket hd hk
      exact ⟨hle, hint, Int.le_trans (junkSize_bounds hle _).1 halloc⟩

/-- The burst whose junk packets are as small as they can be. -/
theorem exists_handshakeBurst (crypto : QuicCrypto) (hd : BurstValid d.obfuscation)
    (hsend : d.Sendable) (hpacket : packet.length = messageInitiationSize) :
    ∃ draws bufs, d.handshakeBurst crypto draws packet = some bufs := by
  let draws : BurstDraws :=
    { chain := fun _ _ => { random := fun _ => 0, clock := 0, counter := 0 }
      size := fun _ => 0, junk := fun _ _ => 0, padding := fun _ => 0, counter := 0 }
  obtain ⟨ipackets, hipackets⟩ := exists_ipacketsFrom crypto hd draws hsend.ipackets (finRange 5)
  obtain ⟨out, hpad⟩ := padInitiation_eq hd hsend.padding draws hpacket
  have hjunk : ∃ junk, d.junkPackets draws = some junk := by
    by_cases hpos : 0 < d.junk.count
    · obtain ⟨hle, hint, halloc⟩ := hsend.junk hpos
      refine exists_junkFrom (fun k => ?_) 0 d.junk.count.toNat
      obtain ⟨buf, hbuf, -⟩ := junkPacket_eq hd hle hint draws k
        (by rw [junkSize_zero]; exact halloc)
      exact ⟨buf, hbuf⟩
    · refine ⟨[], ?_⟩
      rw [junkPackets, Int.toNat_of_nonpos (Int.not_lt.mp hpos)]
      rfl
  obtain ⟨junk, hjunk⟩ := hjunk
  refine ⟨draws, ipackets ++ junk ++ [out], ?_⟩
  simp only [handshakeBurst, hipackets, hjunk, hpad, bind_eq_bind, bind_some]
  rfl

/-- Every burst that is handed over fits a batch, and `StdNetBind.Send` does not leave its array. -/
def BurstFits (crypto : QuicCrypto) (d : Device B E) : Prop :=
  ∀ (draws : BurstDraws) (packet : Bytes) (bufs : List Bytes), packet.length =
    messageInitiationSize → d.handshakeBurst crypto draws packet = some bufs →
      bufs.length ≤ idealBatchSize ∧
        ∀ (A W : Type) (bind : StdNetBind) (write : List (Message A) → Option W) (disables : W →
          Bool) (ua : A)
          (ep : StdNetEndpoint) (slices : List Slice) (msgs : List (Message A)) (mem : ℕ → Byte),
          slices.map (fun s => s.read mem) = bufs → msgs.length = idealBatchSize →
            (bind.send write disables ua ep slices msgs mem).isSome

/-- **A burst fits the batch of a bind** if and only if nothing can be made of the settings, or they
ask for at most 127 packets besides the initiation. -/
theorem Configured.burstFits_iff (crypto : QuicCrypto) {env : Env B E} {d : Device B E}
    (h : Configured env (fun _ => True) d) : d.BurstFits crypto ↔
      ¬d.Sendable ∨ (d.ipacketCount (List.finRange 5) : ℤ) + d.junk.count ≤ idealBatchSize - 1 := by
  have hd := h.burstValid
  constructor
  · intro hfits
    by_contra hcon
    obtain ⟨hsend, hmany⟩ := not_or.mp hcon
    have hpacket : (replicate messageInitiationSize (0 : Byte)).length = messageInitiationSize :=
      length_replicate
    obtain ⟨draws, bufs, hbufs⟩ := exists_handshakeBurst crypto hd (not_not.mp hsend) hpacket
    have hlen := (of_handshakeBurst hd hpacket hbufs).1
    have hle := (hfits draws _ bufs hpacket hbufs).1
    unfold burstLen at hlen
    omega
  · rintro hcond draws packet bufs hpacket hbufs
    obtain ⟨hlen, hsend⟩ := of_handshakeBurst hd hpacket hbufs
    unfold burstLen at hlen
    have hfew := hcond.resolve_left (not_not.mpr hsend)
    have hle : bufs.length ≤ idealBatchSize := by omega
    refine ⟨hle, fun A W bind write disables ua ep slices msgs mem hslices hmsgs => ?_⟩
    have hcount : slices.length = bufs.length := by rw [← hslices, length_map]
    exact bind.send_isSome write disables ua ep mem (by omega)

/-- One I-packet and ten junk packets. -/
theorem Configured.burstFits_eleven :
    let r := (newDevice () : Device Unit Unit).ipcSet quietEnv
      (ascii "jc=10\njmin=8\njmax=80\ni1=<r 16>\n\n")
    r.2 = none ∧ r.1.burstLen = 12 ∧ r.1.BurstFits QuicCrypto.zeros := by
  intro r
  have haccepted : r.2 = none := by decide +kernel
  have hlen : r.1.burstLen = 12 := by decide +kernel
  have hset : (newDevice () : Device Unit Unit).ipcSet quietEnv
      (ascii "jc=10\njmin=8\njmax=80\ni1=<r 16>\n\n") = (r.1, none) := Prod.ext rfl haccepted
  refine ⟨haccepted, hlen, (burstFits_iff QuicCrypto.zeros (.set (.new ()) trivial hset)).mpr
    (Or.inr ?_)⟩
  unfold burstLen at hlen
  have hbatch : (idealBatchSize : ℤ) = 128 := rfl
  omega

/-- 128 junk packets are accepted: with the initiation there is one buffer more than the array has
messages, and without offload `Send` is out of range. -/
theorem burst_exceeds_batch :
    let r := (newDevice () : Device Unit Unit).ipcSet quietEnv (ascii "jc=128\n\n")
    r.2 = none ∧ ∀ packet : Bytes, packet.length = messageInitiationSize →
      ∃ draws bufs, r.1.handshakeBurst QuicCrypto.zeros draws packet = some bufs ∧
        bufs.length = 129 ∧
        ∀ (bind : StdNetBind) (write : List (Message Unit) → Option Unit) (ep : StdNetEndpoint)
          (slices : List Slice) (msgs : List (Message Unit)) (mem : ℕ → Byte),
          slices.map (fun s => s.read mem) = bufs → msgs.length = idealBatchSize → ep.is6 = false →
            bind.blackhole4 = false → bind.ipv4 = true → bind.ipv4TxOffload = false →
              bind.send write (fun _ => false) () ep slices msgs mem = none := by
  intro r
  have haccepted : r.2 = none := by decide +kernel
  have hset : (newDevice () : Device Unit Unit).ipcSet quietEnv (ascii "jc=128\n\n") =
      (r.1, none) :=
    Prod.ext rfl haccepted
  have hconfigured : Configured quietEnv (fun _ => True) r.1 := .set (.new ()) trivial hset
  have hd := hconfigured.burstValid
  have hlen : r.1.burstLen = 129 := by decide +kernel
  have hsend : r.1.Sendable := by
    have hjunk : r.1.junk = { count := 128, min := 0, max := 0 } := by decide +kernel
    have hpadding : r.1.paddings.init = 0 := by decide +kernel
    have hnone : ∀ i, (r.1.ipackets i).isSome = false := by decide +kernel
    refine ⟨fun i c hc => ?_, fun _ => by rw [hjunk]; decide, by rw [hpadding]; decide⟩
    have hi := hnone i
    rw [hc] at hi
    cases hi
  refine ⟨haccepted, fun packet hpacket => ?_⟩
  obtain ⟨draws, bufs, hbufs⟩ := exists_handshakeBurst QuicCrypto.zeros hd hsend hpacket
  have hbufsLen := (of_handshakeBurst hd hpacket hbufs).1
  have hcount : bufs.length = 129 := by omega
  refine ⟨draws, bufs, hbufs, hcount,
    fun bind write ep slices msgs mem hslices hmsgs h6 hhole hconn hoff => ?_⟩
  have hslicesLen : slices.length = bufs.length := by rw [← hslices, length_map]
  -- the batch has a message less than the burst has buffers
  have hfill : fillMessages () ep slices msgs = none := by
    rw [fillMessages_eq_none_iff, hmsgs, hslicesLen, hcount]
    decide
  simp [StdNetBind.send, h6, hhole, hconn, hoff, hfill]

end Device

end AmneziaWG.Device
