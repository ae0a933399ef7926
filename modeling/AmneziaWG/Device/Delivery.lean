import AmneziaWG.Device.Receive

/-!
# What Reaches the TUN Device

The last checks of `RoutineSequentialReceiver` (`device/receive.go`) on a decrypted payload: the
IP version, the length in the IP header, and the owner of the source address.

The length of an IPv6 packet is computed in 16 bits.  A payload length close to the maximum
wraps around, passes the range check, and a packet shorter than its own header is written.

## Main results

- `delivered_complete_iff`: only complete packets of the peer are written, exactly when the
  length does not wrap around.
-/

set_option linter.dupNamespace false

namespace AmneziaWG.Device

open AmneziaWG.Lib List Option BitVec Nat

/-! ## §1 Complete packets -/

/-- A complete packet at the front of payload `x`, whose source address belongs to `peer`. -/
def CompletePacket (owners : Family → PrefixMap ℕ) (peer : ℕ) (x content : Bytes) : Prop :=
  ∃ L, content = x.take L ∧ L ≤ x.length ∧
    ((ipVersion x = some 4 ∧ 20 ≤ L ∧
      (∃ field, beUint16 (x.drop 2) = some field ∧ L = field.toNat) ∧
        (owners .ipv4).longest (toBits ((content.drop 12).take 4)) = some peer) ∨
      (ipVersion x = some 6 ∧ 40 ≤ L ∧
        (∃ field, beUint16 (x.drop 4) = some field ∧ L = 40 + field.toNat) ∧
        (owners .ipv6).longest (toBits ((content.drop 8).take 16)) = some peer))

/-- An IPv6 packet whose length does not fit 16 bits. -/
def LengthWraps (x : Bytes) : Prop :=
  ipVersion x = some 6 ∧ 40 ≤ x.length ∧
    ∃ field, beUint16 (x.drop 4) = some field ∧ 2 ^ 16 ≤ 40 + field.toNat

theorem take_drop_take (x : Bytes) {L off n : ℕ} (h : off + n ≤ L) :
    ((x.take L).drop off).take n = (x.drop off).take n := by
  rw [drop_take, take_take, min_eq_left (by omega)]

/-! ## §2 The checks -/

theorem exists_beUint16 (data : Bytes) {off : ℕ} (h : off + 2 ≤ data.length) :
    ∃ field, beUint16 (data.drop off) = some field := by
  have hlen : 2 ≤ (data.drop off).length := by
    rw [length_drop]
    omega
  match data.drop off, hlen with
  | hi :: lo :: _, _ => exact ⟨hi ++ lo, rfl⟩

theorem ne_nil_of_ipVersion {x : Bytes} {v : ℕ} (h : ipVersion x = some v) : ¬x.length = 0 := by
  intro hzero
  rw [length_eq_zero_iff.mp hzero] at h
  cases h

namespace Device

variable {B E : Type} {d : Device B E} {peer : ℕ} {header x rest : Bytes}
variable {span : Span} {owners : Family → PrefixMap ℕ}

theorem payload_slice {low high : ℕ} (hlow : low ≤ high) (hhigh : high ≤ x.length) :
    Span.slice ⟨header.length, x.length⟩ (header ++ (x ++ rest)) low high =
      some ((x.drop low).take (high - low)) :=
  Span.slice_middle rfl hlow hhigh

/-- How the last check ends, once the length is known. -/
theorem route_check_iff {src : Bytes} {checked : Span} :
    ((d.allowedips.table.lookup src).bind fun owner =>
        some (if owner ≠ some peer then none else some checked)) = some (some span) ↔
      span = checked ∧ d.allowedips.table.lookup src = some (some peer) := by
  cases hlookup : d.allowedips.table.lookup src with
  | none => simp
  | some owner =>
    by_cases howner : owner = some peer
    · simp [howner, eq_comm]
    · simp [howner]

theorem deliverable_ipv4_iff (hversion : ipVersion x = some 4) :
    d.deliverable peer (header ++ (x ++ rest)) ⟨header.length, x.length⟩ = some (some span) ↔
      ∃ field, beUint16 (x.drop 2) = some field ∧ 20 ≤ field.toNat ∧ field.toNat ≤ x.length ∧
        span = ⟨header.length, field.toNat⟩ ∧
        d.allowedips.table.lookup ((x.drop 12).take 4) = some (some peer) := by
  have hbytes : Span.bytes ⟨header.length, x.length⟩ (header ++ (x ++ rest)) = x :=
    Span.bytes_middle rfl rfl
  unfold deliverable
  rw [hbytes, if_neg (ne_nil_of_ipVersion hversion)]
  -- the checks of the source in turn: header, total length, route
  by_cases hshort : x.length < 20
  · simp only [hversion, if_pos hshort]
    refine iff_of_false (by simp) ?_
    rintro ⟨field, -, hlow, hhigh, -⟩
    omega
  · obtain ⟨field, hfield⟩ := exists_beUint16 x (by omega : 2 + 2 ≤ x.length)
    simp only [hversion, if_neg hshort, payload_slice (by omega : 2 ≤ 4) (by omega : 4 ≤ x.length),
      payload_slice (by omega : 12 ≤ 16) (by omega : 16 ≤ x.length), beUint16_take, hfield,
      Option.bind_eq_bind, Option.bind_some, Option.pure_def, Nat.reduceSub, Option.some.injEq,
      exists_eq_left']
    by_cases hrange : field.toNat > x.length ∨ field.toNat < 20
    · rw [if_pos hrange]
      refine iff_of_false (by simp) ?_
      rintro ⟨hlow, hhigh, -⟩
      omega
    · rw [if_neg hrange, route_check_iff]
      constructor
      · exact fun h => ⟨by omega, by omega, h⟩
      · exact fun h => h.2.2

theorem deliverable_ipv6_iff (hversion : ipVersion x = some 6) :
    d.deliverable peer (header ++ (x ++ rest)) ⟨header.length, x.length⟩ = some (some span) ↔
      40 ≤ x.length ∧ ∃ field, beUint16 (x.drop 4) = some field ∧
        (field + 40).toNat ≤ x.length ∧ span = ⟨header.length, (field + 40).toNat⟩ ∧
        d.allowedips.table.lookup ((x.drop 8).take 16) = some (some peer) := by
  have hbytes : Span.bytes ⟨header.length, x.length⟩ (header ++ (x ++ rest)) = x :=
    Span.bytes_middle rfl rfl
  unfold deliverable
  rw [hbytes, if_neg (ne_nil_of_ipVersion hversion)]
  by_cases hshort : x.length < 40
  · simp only [hversion, if_pos hshort]
    exact iff_of_false (by simp) fun h => absurd h.1 (Nat.not_le.mpr hshort)
  · obtain ⟨field, hfield⟩ := exists_beUint16 x (by omega : 4 + 2 ≤ x.length)
    simp only [hversion, if_neg hshort, payload_slice (by omega : 4 ≤ 6) (by omega : 6 ≤ x.length),
      payload_slice (by omega : 8 ≤ 24) (by omega : 24 ≤ x.length), beUint16_take, hfield,
      Option.bind_eq_bind, Option.bind_some, Option.pure_def, Nat.reduceSub, Option.some.injEq,
      exists_eq_left', not_lt.mp hshort, true_and]
    by_cases hrange : (field + 40).toNat > x.length
    · rw [if_pos hrange]
      exact iff_of_false (by simp) fun h => absurd h.1 (Nat.not_le.mpr hrange)
    · rw [if_neg hrange, route_check_iff]
      exact ⟨fun h => ⟨not_lt.mp hrange, h⟩, fun h => h.2⟩

theorem deliverable_other (h4 : ipVersion x ≠ some 4) (h6 : ipVersion x ≠ some 6) :
    d.deliverable peer (header ++ (x ++ rest)) ⟨header.length, x.length⟩ = some none := by
  have hbytes : Span.bytes ⟨header.length, x.length⟩ (header ++ (x ++ rest)) = x :=
    Span.bytes_middle rfl rfl
  unfold deliverable
  rw [hbytes]
  by_cases hempty : x.length = 0
  · exact if_pos hempty
  · rw [if_neg hempty]
    split
    · next h => exact absurd h h4
    · next h => exact absurd h h6
    · rfl

theorem deliverable_span
    (h : d.deliverable peer (header ++ (x ++ rest)) ⟨header.length, x.length⟩ = some (some span)) :
    ∃ L, L ≤ x.length ∧ span = ⟨header.length, L⟩ := by
  by_cases h4 : ipVersion x = some 4
  · obtain ⟨field, -, -, hle, hspan, -⟩ := (deliverable_ipv4_iff h4).mp h
    exact ⟨_, hle, hspan⟩
  · by_cases h6 : ipVersion x = some 6
    · obtain ⟨-, field, -, hle, hspan, -⟩ := (deliverable_ipv6_iff h6).mp h
      exact ⟨_, hle, hspan⟩
    · rw [deliverable_other h4 h6] at h
      cases h

/-! ## §3 The buffer that is written -/

/-- An element with a decrypted payload behind the header of its message. -/
def decryptedElement (header x rest : Bytes) (keypair : ℕ) (counter : BitVec 64) : InboundElement :=
  { buffer := header ++ (x ++ rest), packet := some ⟨header.length, x.length⟩, keypair, counter }

/-- The buffer of an element holds the first bytes of its payload, as many as the checks let
through. -/
theorem receiveElement_iff (hheader : header.length = messageTransportHeaderSize)
    {filter filter' : Replay.Filter} {keypair : ℕ} {counter : BitVec 64} {buf : Bytes} :
    d.receiveElement peer filter (decryptedElement header x rest keypair counter) =
        some (filter', some buf) ↔
      filter.validateCounter counter rejectAfterMessages = (true, filter') ∧
        ∃ L, d.deliverable peer (header ++ (x ++ rest)) ⟨header.length, x.length⟩ =
            some (some ⟨header.length, L⟩) ∧ buf = header ++ x.take L := by
  -- the slice that is written begins at the front of the buffer
  have hslice : ∀ L, L ≤ x.length → Span.slice ⟨0, 0⟩ (header ++ (x ++ rest)) 0
      (messageTransportHeaderSize + L) = some (header ++ x.take L) := by
    intro L hL
    have hsplit : header ++ (x ++ rest) = (header ++ x.take L) ++ (x.drop L ++ rest) := by
      rw [List.append_assoc, ← List.append_assoc (x.take L), List.take_append_drop]
    have hlen : messageTransportHeaderSize + L = (header ++ x.take L).length := by
      rw [length_append, hheader, length_take, min_eq_left hL]
    rw [hsplit, hlen, Span.slice_front (Nat.zero_le _) (Nat.le_refl _), List.drop_zero,
      Nat.sub_zero, take_length]
  unfold receiveElement decryptedElement
  dsimp only
  rcases hfilter : filter.validateCounter counter rejectAfterMessages with ⟨ok, after⟩
  cases ok with
  | false => simp
  | true =>
    cases hdeliver : d.deliverable peer (header ++ (x ++ rest)) ⟨header.length, x.length⟩ with
    | none => simp
    | some delivered =>
      cases delivered with
      | none => simp
      | some span =>
        obtain ⟨L, hL, rfl⟩ := deliverable_span hdeliver
        simp [hslice L hL, eq_comm]

theorem lookup_owner_iff (howners : d.allowedips.table.Refines owners) {f : Family} {src : Bytes}
    (hsrc : src.length = f.addrLen) : d.allowedips.table.lookup src = some (some peer) ↔
      (owners f).longest (toBits src) = some peer := by
  rw [AllowedIPs.lookup_eq_longest howners d.allowedips.wf.toLinked hsrc, some.injEq]

/-- What is delivered without a wrap is complete. -/
theorem deliverable_complete (howners : d.allowedips.table.Refines owners)
    (hwrap : ¬(LengthWraps x ∧ (owners .ipv6).longest (toBits ((x.drop 8).take 16)) = some peer))
    {L : ℕ} (h : d.deliverable peer (header ++ (x ++ rest)) ⟨header.length, x.length⟩ =
      some (some ⟨header.length, L⟩)) : CompletePacket owners peer x (x.take L) := by
  have hfield : ∀ off n, off + n ≤ x.length → ((x.drop off).take n).length = n := by
    intro off n hn
    rw [length_take, length_drop]
    omega
  by_cases h4 : ipVersion x = some 4
  · obtain ⟨field, hread, hlow, hhigh, hspan, hroute⟩ := (deliverable_ipv4_iff h4).mp h
    have hL : L = field.toNat := congrArg Span.len hspan
    rw [lookup_owner_iff howners (f := .ipv4) (hfield 12 4 (by omega))] at hroute
    refine ⟨L, rfl, by omega, Or.inl ⟨h4, by omega, ⟨field, hread, hL⟩, ?_⟩⟩
    rwa [take_drop_take x (by omega)]
  · by_cases h6 : ipVersion x = some 6
    · obtain ⟨hlong, field, hread, hhigh, hspan, hroute⟩ := (deliverable_ipv6_iff h6).mp h
      have hL : L = (field + 40).toNat := congrArg Span.len hspan
      rw [lookup_owner_iff howners (f := .ipv6) (hfield 8 16 (by omega))] at hroute
      -- otherwise the sum of 16 bits is not the sum
      have hsum : 40 + field.toNat < 2 ^ 16 := by
        by_contra hge
        exact hwrap ⟨⟨h6, hlong, field, hread, not_lt.mp hge⟩, hroute⟩
      have hexact : (field + 40).toNat = 40 + field.toNat := by
        rw [toNat_add, add_comm]
        exact mod_eq_of_lt hsum
      refine ⟨L, rfl, by omega, Or.inr ⟨h6, by omega, ⟨field, hread, by omega⟩, ?_⟩⟩
      rwa [take_drop_take x (by omega)]
    · rw [deliverable_other h4 h6] at h
      cases h

/-- A packet whose length wraps around is cut below the size of its header. -/
theorem deliverable_of_wraps (howners : d.allowedips.table.Refines owners) (hwrap : LengthWraps x)
    (howner : (owners .ipv6).longest (toBits ((x.drop 8).take 16)) = some peer)
    (header rest : Bytes) :
    ∃ L, L < 40 ∧ d.deliverable peer (header ++ (x ++ rest)) ⟨header.length, x.length⟩ =
      some (some ⟨header.length, L⟩) := by
  obtain ⟨h6, hlong, field, hread, hge⟩ := hwrap
  have hsrc : ((x.drop 8).take 16).length = Family.ipv6.addrLen := by
    rw [length_take, length_drop]
    exact min_eq_left (by omega)
  have hsmall : (field + 40).toNat < 40 := by
    have := field.isLt
    rw [toNat_add]
    show (field.toNat + 40) % 2 ^ 16 < 40
    omega
  exact ⟨_, hsmall, (deliverable_ipv6_iff h6).mpr ⟨hlong, field, hread, by omega, rfl,
    (lookup_owner_iff howners hsrc).mpr howner⟩⟩

/-- A filter that has seen nothing. -/
def unusedFilter : Replay.Filter := { last := 0, ring := fun _ => 0 }

/-- Every buffer that is written for payload `x` of `peer` holds a complete packet from an address
of the peer, unless the payload is an IPv6 packet from such an address whose length wraps
around; then what is written is not complete. -/
theorem delivered_complete_iff {owners : Family → PrefixMap ℕ}
    (howners : d.allowedips.table.Refines owners) (peer : ℕ) (x : Bytes) :
    (∀ header rest keypair counter filter filter' buf, header.length = messageTransportHeaderSize →
      d.receiveElement peer filter (decryptedElement header x rest keypair counter) =
        some (filter', some buf) →
      CompletePacket owners peer x (buf.drop messageTransportHeaderSize)) ↔
    ¬(LengthWraps x ∧ (owners .ipv6).longest (toBits ((x.drop 8).take 16)) = some peer) := by
  constructor
  · rintro hcomplete ⟨hwrap, howner⟩
    have hheader : (replicate messageTransportHeaderSize 0 : Bytes).length =
        messageTransportHeaderSize := length_replicate
    obtain ⟨L, hL, hdeliver⟩ := deliverable_of_wraps howners hwrap howner
      (replicate messageTransportHeaderSize 0) []
    have hfilter : (unusedFilter.validateCounter 0 rejectAfterMessages).1 = true := by decide
    have hpacket := hcomplete _ [] 0 0 unusedFilter _ _ hheader
      ((receiveElement_iff hheader).mpr ⟨Prod.ext hfilter rfl, L, hdeliver, rfl⟩)
    rw [drop_left' hheader] at hpacket
    obtain ⟨L', htake, hL', hversion⟩ := hpacket
    -- both prefixes have one length
    have hlen := congrArg length htake
    rw [length_take, length_take, min_eq_left hL'] at hlen
    rcases hversion with ⟨h4, -⟩ | ⟨-, hlow, -⟩
    · cases h4.symm.trans hwrap.1
    · omega
  · intro hwrap header rest keypair counter filter filter' buf hheader hreceive
    obtain ⟨-, L, hdeliver, rfl⟩ := (receiveElement_iff hheader).mp hreceive
    rw [drop_left' hheader]
    exact deliverable_complete howners hwrap hdeliver

/-- On the device of `tunnelConf` no IPv4 packet is in the way. -/
theorem delivered_complete_bareIPv4 :
    let d := ((newDevice () : Device Unit Unit).ipcSet openEnv tunnelConf).1
    ∃ owners, d.allowedips.table.Refines owners ∧
      ∀ header rest keypair counter filter filter' buf, header.length = messageTransportHeaderSize →
        d.receiveElement 0 filter (decryptedElement header bareIPv4 rest keypair counter) =
          some (filter', some buf) →
        CompletePacket owners 0 bareIPv4 (buf.drop messageTransportHeaderSize) := by
  intro d
  obtain ⟨owners, howners⟩ := d.allowedips.wf.exists_refines
  refine ⟨owners, howners, (delivered_complete_iff howners 0 bareIPv4).mpr ?_⟩
  rintro ⟨⟨hversion, -⟩, -⟩
  cases hversion

/-- A device with one peer that may use every IPv6 address. -/
def openIPv6Device : Device Unit Unit :=
  { (newDevice () : Device Unit Unit) with
    allowedips := RoutingTable.empty.insert
      ⟨.ipv6, List.replicate 16 0, 0, rfl, by decide⟩ 0 }

/-- An IPv6 header with a payload length of 65535. -/
def hugeIPv6 : Bytes := [0x60, 0, 0, 0, 0xFF, 0xFF, 59, 64] ++ List.replicate 32 0

/-- The header alone is received, and 39 bytes of it are written. -/
theorem wrapped_length_delivered : ∃ filter' buf, openIPv6Device.receiveElement 0 unusedFilter
        (decryptedElement (List.replicate 16 0) hugeIPv6 [] 0 0) = some (filter', some buf) ∧
      (buf.drop messageTransportHeaderSize).length = 39 ∧
      ∀ owners, ¬CompletePacket owners 0 hugeIPv6 (buf.drop messageTransportHeaderSize) := by
  have hrun : (openIPv6Device.receiveElement 0 unusedFilter
      (decryptedElement (replicate 16 0) hugeIPv6 [] 0 0)).map Prod.snd =
        some (some (List.replicate 16 0 ++ hugeIPv6.take 39)) := by decide
  obtain ⟨⟨filter', written⟩, hsome, hwritten⟩ := map_eq_some_iff.mp hrun
  cases hwritten
  refine ⟨filter', _, hsome, rfl, ?_⟩
  rintro owners ⟨L, htake, hL, hversion⟩
  have hlen := congrArg length htake
  rw [length_take, min_eq_left hL] at hlen
  have h39 : L = 39 := hlen.symm
  rcases hversion with ⟨h4, -⟩ | ⟨-, hlow, -⟩
  · cases h4
  · omega

end Device

end AmneziaWG.Device
