import AmneziaWG.Device.Obf.Filler
import AmneziaWG.Device.Obf.QuicInitial
import AmneziaWG.Lib.Base64
import AmneziaWG.Lib.Render
import Mathlib.Algebra.Order.BigOperators.Group.List

/-!
# I-Packets

Embedding of `Obfuscate` and `ObfuscatedLen` of a chain (`device/obf.go`) and of its tags.  A chain
writes the parts of its tags one behind the other into one buffer; lengths are `int`s, and `none` is
a panic.

A builder takes the length of its tag as it stands in the spec.  So a negative length, or lengths
whose sum is not an `int`, get into a chain, and no packet can be made of it.

## Main results

- `Obf.obfuscate_part`: with room for its own length, a tag overwrites exactly that.
- `ObfChain.safeToSend_iff`: a chain can be sent if and only if no tag has a negative length and the
  sum of the lengths is an `int`.
-/

namespace AmneziaWG.Device

open AmneziaWG.Lib List Option BitVec Nat

/-! ## §1 Tags -/

/-- What the tags take from outside: random bytes, the time in seconds, and the counter of
`imitateObf` behind its increment. -/
structure Draws where
  random : ℕ → Byte
  clock : BitVec 32
  counter : BitVec 64

def chars52 : Bytes := ascii "abcdefghijklmnopqrstuvwxyzABCDEFGHIJKLMNOPQRSTUVWXYZ"

def digits10 : Bytes := ascii "0123456789"

/-- `ObfuscatedLen` of a tag. -/
def Obf.obfuscatedLen (srcLen : ℤ) : Obf → ℤ
  | .bytes bs => bs.length
  | .timestamp => 4
  | .rand length => length
  | .randChar length => length
  | .randDigit length => length
  | .data => srcLen
  | .dataString => rawBase64Len srcLen
  | .dataSize length => length
  | .imitate _ length => length
  | .qinit _ => qinitDatagramLen

/-- Run a writer on `dst[:n]`. -/
def onHead (dst : Bytes) (n : ℤ) (write : Bytes → Option Bytes) : Option Bytes :=
  if 0 ≤ n then onPadding dst n.toNat write else none

/-- The loop of `dataSizeObf`, from the last byte to the first. -/
def putSize : ℕ → ℕ → Bytes → Option Bytes
  | 0, _, dst => some dst
  | i + 1, srcLen, dst => do
    let dst ← writeAt dst i [BitVec.ofNat 8 srcLen]
    putSize i (srcLen / 256) dst

/-- `Obfuscate` of a tag. -/
def Obf.obfuscate (crypto : QuicCrypto) (draws : Draws) (o : Obf) (dst src : Bytes) :
    Option Bytes :=
  match o with
  | .bytes bs => some (copyBytes dst bs)
  | .timestamp => writeAt dst 0 (be32 draws.clock)
  | .rand length => onHead dst length fun p => some (randRead draws.random p.length)
  | .randChar length => onHead dst length fun p =>
    some ((randRead draws.random p.length).map fun b => chars52.getD (b.toNat % 52) 0)
  | .randDigit length => onHead dst length fun p =>
    some ((randRead draws.random p.length).map fun b => digits10.getD (b.toNat % 10) 0)
  | .data => some (copyBytes dst src)
  | .dataString => writeAt dst 0 (encodeRawBase64 src)
  | .dataSize length => putSize length.toNat src.length dst
  | .imitate proto length => onHead dst length fun p =>
    imitateFillWhole 64 p (imitateJunkSeed draws.counter) proto
  | .qinit sni => onHead dst qinitDatagramLen fun p =>
    (buildQUICInitial crypto draws.random sni qinitDatagramLen).map (copyBytes p)

/-! ## §2 Chains -/

/-- `ObfuscatedLen` of a chain. -/
def ObfChain.obfuscatedLen (c : ObfChain) (n : ℤ) : ℤ :=
  c.obfs.foldl (fun total o => wrapInt 64 (total + o.obfuscatedLen n)) 0

/-- Run a writer on `dst[low:high]`. -/
def onSlice (dst : Bytes) (low high : ℤ) (write : Bytes → Option Bytes) : Option Bytes :=
  if 0 ≤ low ∧ low ≤ high ∧ high ≤ dst.length then
    (write ((dst.drop low.toNat).take (high - low).toNat)).map fun part =>
      dst.take low.toNat ++ (part ++ dst.drop high.toNat)
  else none

/-- The loop of `Obfuscate`; `draws i` is what the tag `i` takes. -/
def obfuscateFrom (crypto : QuicCrypto) (draws : ℕ → Draws) (src : Bytes) :
    ℕ → List Obf → ℤ → Bytes → Option Bytes
  | _, [], _, dst => some dst
  | i, o :: obfs, written, dst => do
    let next := wrapInt 64 (written + o.obfuscatedLen src.length)
    let dst ← onSlice dst written next fun part => o.obfuscate crypto (draws i) part src
    obfuscateFrom crypto draws src (i + 1) obfs next dst

/-- `Obfuscate` of a chain. -/
def ObfChain.obfuscate (crypto : QuicCrypto) (draws : ℕ → Draws) (c : ObfChain) (dst src : Bytes) :
    Option Bytes :=
  obfuscateFrom crypto draws src 0 c.obfs 0 dst

/-- The chain makes a packet: its length is not negative, and a buffer of that length is overwritten
with one part for each tag, as long as the tag says, whatever was in the buffer. -/
structure ObfChain.SafeToSend (crypto : QuicCrypto) (c : ObfChain) : Prop where
  nonneg : 0 ≤ c.obfuscatedLen 0
  writes : ∀ draws, ∃ parts : List Bytes,
    List.Forall₂ (fun o part => (part.length : ℤ) = Obf.obfuscatedLen 0 o) c.obfs parts ∧
      ∀ dst : Bytes, (dst.length : ℤ) = c.obfuscatedLen 0 →
        c.obfuscate crypto draws dst [] = some parts.flatten

/-! ## §3 What the builders accept -/

/-- What a builder checks. -/
def Obf.Built : Obf → Prop
  | .imitate proto _ => proto ≠ .none
  | .qinit sni => sni.length ≤ 255
  | _ => True

/-- What is known of a tag that a text of `n` bytes has been parsed to: besides what its builder
checks, its length is a number that the text writes out, or at most that of the text. -/
structure Obf.Parsed (n : ℕ) (o : Obf) : Prop where
  built : o.Built
  ge : -2 ^ 63 ≤ o.obfuscatedLen 0
  lt_or_le : o.obfuscatedLen 0 < 2 ^ 63 ∨ o.obfuscatedLen 0 ≤ n

variable {n : ℕ} {val dst out : Bytes} {o : Obf} {obfs : List Obf} {c : ObfChain}
  {write : Bytes → Option Bytes}

theorem parsed_of_newLengthObf (mk : ℤ → Obf) (hbuilt : ∀ k, (mk k).Built)
    (hlen : ∀ k, (mk k).obfuscatedLen 0 = k) (h : newLengthObf mk val = .ok o) : o.Parsed n := by
  unfold newLengthObf at h
  cases hatoi : atoi val with
  | error err => rw [hatoi] at h; cases h
  | ok k =>
    obtain ⟨hge, hlt⟩ := atoi_int hatoi
    rw [hatoi] at h
    cases h
    exact ⟨hbuilt k, (hlen k).symm ▸ hge, Or.inl ((hlen k).symm ▸ hlt)⟩

theorem parsed_of_newBytesObf (hval : val.length ≤ n)
    (h : newBytesObf val = .ok o) : o.Parsed n := by
  unfold newBytesObf at h
  dsimp only at h
  split_ifs at h
  cases hhex : decodeHex (trimHead (ascii "0x") val) with
  | error err => rw [hhex] at h; cases h
  | ok bs =>
    have htrim : (trimHead (ascii "0x") val).length ≤ val.length := by
      unfold trimHead
      split
      · rw [length_drop]
        exact sub_le _ _
      · exact le_refl _
    have hle := length_decodeHex_le hhex
    rw [hhex] at h
    cases h
    refine ⟨trivial, ?_, Or.inr ?_⟩
    · exact Int.le_trans (by decide) (Int.natCast_nonneg bs.length)
    · show (bs.length : ℤ) ≤ n
      omega

theorem parsed_of_newQInitObf (h : newQInitObf val = .ok o) : o.Parsed n := by
  unfold newQInitObf at h
  dsimp only at h
  split_ifs at h with hempty hlong
  cases h
  exact ⟨not_lt.mp hlong, (by decide : (-2 : ℤ) ^ 63 ≤ 1200),
    Or.inl (by decide : (1200 : ℤ) < 2 ^ 63)⟩

theorem eq_or_of_ite_eq_some {α : Type} {c : Prop} [Decidable c] {a b : α} {x : Option α}
    (h : (if c then some a else x) = some b) : a = b ∨ x = some b := by
  split at h
  · exact Or.inl (some.inj h)
  · exact Or.inr h

theorem parsed_of_obfBuilders {key : Bytes} {builder : Bytes → Except ObfError Obf}
    (hbuilder : obfBuilders key = some builder) (hval : val.length ≤ n) (h : builder val = .ok o) :
    o.Parsed n := by
  unfold obfBuilders at hbuilder
  -- one entry of the map after the other
  rcases eq_or_of_ite_eq_some hbuilder with rfl | hbuilder
  · exact parsed_of_newBytesObf hval h
  rcases eq_or_of_ite_eq_some hbuilder with rfl | hbuilder
  · cases h
    exact ⟨trivial, (by decide : (-2 : ℤ) ^ 63 ≤ 4), Or.inl (by decide : (4 : ℤ) < 2 ^ 63)⟩
  rcases eq_or_of_ite_eq_some hbuilder with rfl | hbuilder
  · exact parsed_of_newLengthObf .rand (fun _ => trivial) (fun _ => rfl) h
  rcases eq_or_of_ite_eq_some hbuilder with rfl | hbuilder
  · exact parsed_of_newLengthObf .randChar (fun _ => trivial) (fun _ => rfl) h
  rcases eq_or_of_ite_eq_some hbuilder with rfl | hbuilder
  · exact parsed_of_newLengthObf .randDigit (fun _ => trivial) (fun _ => rfl) h
  rcases eq_or_of_ite_eq_some hbuilder with rfl | hbuilder
  · cases h
    exact ⟨trivial, (by decide : (-2 : ℤ) ^ 63 ≤ 0), Or.inl (by decide : (0 : ℤ) < 2 ^ 63)⟩
  rcases eq_or_of_ite_eq_some hbuilder with rfl | hbuilder
  · cases h
    exact ⟨trivial, by decide, Or.inl (by decide)⟩
  rcases eq_or_of_ite_eq_some hbuilder with rfl | hbuilder
  · exact parsed_of_newLengthObf .dataSize (fun _ => trivial) (fun _ => rfl) h
  rcases eq_or_of_ite_eq_some hbuilder with rfl | hbuilder
  · exact parsed_of_newLengthObf (.imitate .quic) (fun _ => (by decide : ImitateProto.quic ≠ .none))
      (fun _ => rfl) h
  rcases eq_or_of_ite_eq_some hbuilder with rfl | hbuilder
  · exact parsed_of_newLengthObf (.imitate .dns) (fun _ => (by decide : ImitateProto.dns ≠ .none))
      (fun _ => rfl) h
  rcases eq_or_of_ite_eq_some hbuilder with rfl | hbuilder
  · exact parsed_of_newLengthObf (.imitate .stun) (fun _ => (by decide : ImitateProto.stun ≠ .none))
      (fun _ => rfl) h
  rcases eq_or_of_ite_eq_some hbuilder with rfl | hbuilder
  · exact parsed_of_newLengthObf (.imitate .sip) (fun _ => (by decide : ImitateProto.sip ≠ .none))
      (fun _ => rfl) h
  rcases eq_or_of_ite_eq_some hbuilder with rfl | hbuilder
  · exact parsed_of_newQInitObf h
  · cases hbuilder

theorem parsed_of_buildTag {tag : Bytes} (htag : tag.length ≤ n) (h : buildTag tag = .ok o) :
    o.Parsed n := by
  unfold buildTag at h
  split at h
  · cases h
  · next key args hfields =>
    split at h
    · cases h
    · next builder hbuilder =>
      -- the argument is a field of the tag, or empty
      have harg : (args.head?.getD []).length ≤ n := by
        cases args with
        | nil => exact zero_le n
        | cons arg args =>
          have hmem : arg ∈ fieldsFrom 0 [] tag := by
            rw [← fields, hfields]
            simp
          have hle := length_of_mem_fieldsFrom hmem
          rw [length_nil, zero_add] at hle
          exact le_trans hle htag
      cases hbuild : builder (args.head?.getD []) with
      | error err => rw [hbuild] at h; cases h
      | ok o' =>
        rw [hbuild] at h
        cases h
        exact parsed_of_obfBuilders hbuilder harg hbuild

theorem parsed_of_obfChainFrom {fuel : ℕ} {obfs' : List Obf} {errs : List TagError}
    {remaining : Bytes} (hobfs : ∀ o ∈ obfs, o.Parsed n) (hremaining : remaining.length ≤ n)
    (h : obfChainFrom fuel obfs errs remaining = .ok obfs') : ∀ o ∈ obfs', o.Parsed n := by
  -- on the tags; what remains is shorter than the text
  induction fuel generalizing obfs errs remaining with
  | zero => cases h
  | succ fuel ih =>
    rw [obfChainFrom] at h
    split at h
    · split at h
      · cases h
        exact hobfs
      · cases h
    · next rest hopen =>
      split at h
      · cases h
      · next tag remaining' hclose =>
        have hlen := congrArg length (eq_of_cutByte hopen).1
        have hlen' := congrArg length (eq_of_cutByte hclose).1
        simp only [length_append, length_cons] at hlen hlen'
        have hremaining' : remaining'.length ≤ n := by omega
        split at h
        · exact ih hobfs hremaining' h
        · next o hbuild =>
          refine ih ?_ hremaining' h
          intro o' ho'
          rcases mem_append.mp ho' with hold | hnew
          · exact hobfs o' hold
          · rw [mem_singleton.mp hnew]
            exact parsed_of_buildTag (by omega) hbuild

theorem parsed_of_newObfChain {spec : Bytes} (h : newObfChain spec = .ok c) :
    ∀ o ∈ c.obfs, o.Parsed spec.length := by
  unfold newObfChain at h
  cases hchain : obfChainFrom (spec.length + 1) [] [] spec with
  | error err => rw [hchain] at h; cases h
  | ok obfs =>
    rw [hchain] at h
    cases h
    exact parsed_of_obfChainFrom (fun _ hmem => absurd hmem not_mem_nil) (le_refl _) hchain

/-- Every tag of an accepted spec has been checked by its builder. -/
theorem built_of_newObfChain {spec : Bytes} (h : newObfChain spec = .ok c) :
    ∀ o ∈ c.obfs, o.Built :=
  fun o ho => (parsed_of_newObfChain h o ho).built

/-! ## §4 The part of a tag -/

theorem onHead_eq {filler : Bytes} {n : ℤ} (hn : (dst.length : ℤ) = n)
    (hwrite : ∀ p : Bytes, (p.length : ℤ) = n → write p = some filler) :
    onHead dst n write = some filler := by
  have hlen : n.toNat = dst.length := by omega
  rw [onHead, if_pos (by omega), hlen, onPadding_eq (le_refl _) (fun p hp => hwrite p (by omega)),
    drop_length, append_nil]

theorem imitateFillWhole_part (n : ℕ) (seed : BitVec 32) {proto : ImitateProto}
    (hproto : proto ≠ .none) :
    ∃ filler : Bytes, filler.length = n ∧
      ∀ p : Bytes, p.length = n → imitateFillWhole 64 p seed proto = some filler := by
  cases proto with
  | none => exact absurd rfl hproto
  | quic =>
    refine ⟨quicFiller seed n, quicFiller_length seed n, fun p hp => ?_⟩
    rw [imitateFillWhole_eq 64 p seed hproto, hp, wholeFillerAt]
  | dns =>
    refine ⟨dnsFiller ((seed >>> 8).setWidth 8, seed.setWidth 8) n n, dnsFiller_length _ n n,
      fun p hp => ?_⟩
    rw [imitateFillWhole_eq 64 p seed hproto, hp, wholeFillerAt]
  | stun =>
    refine ⟨stunFiller seed n, stunFiller_length seed n, fun p hp => ?_⟩
    rw [imitateFillWhole_eq 64 p seed hproto, hp, wholeFillerAt]
  | sip =>
    refine ⟨sipFiller seed n n, sipFillerOf_length _ n n, fun p hp => ?_⟩
    rw [imitateFillWhole, writeSIP_eq (le_refl _), drop_length, append_nil, hp]

theorem putSize_done {v : ℕ} (h : n ≤ dst.length) :
    putSize n v dst = some ((leBytes n v).reverse ++ dst.drop n) := by
  induction n generalizing v dst with
  | zero => rfl
  | succ n ih =>
    have hwrite : writeAt dst n [BitVec.ofNat 8 v] =
        some (dst.take n ++ (BitVec.ofNat 8 v :: dst.drop (n + 1))) := if_pos h
    have hlen : n ≤ (dst.take n ++ (BitVec.ofNat 8 v :: dst.drop (n + 1))).length := by
      rw [length_append, length_take]
      omega
    have hdrop : (dst.take n ++ (BitVec.ofNat 8 v :: dst.drop (n + 1))).drop n =
        BitVec.ofNat 8 v :: dst.drop (n + 1) :=
      drop_left' (by rw [length_take]; omega)
    rw [putSize, hwrite, bind_eq_bind, bind_some, ih hlen, hdrop, leBytes, reverse_cons,
      List.append_assoc]
    rfl

/-- **A tag overwrites the room for its own length**, whatever is in it. -/
theorem Obf.obfuscate_part (crypto : QuicCrypto) (draws : Draws) (hbuilt : o.Built)
    (hlen : 0 ≤ o.obfuscatedLen 0) : ∃ part : Bytes, (part.length : ℤ) = o.obfuscatedLen 0 ∧
      ∀ dst : Bytes, (dst.length : ℤ) = o.obfuscatedLen 0 → o.obfuscate crypto draws dst [] =
        some part := by
  cases o with
  | bytes bs =>
    refine ⟨bs, rfl, fun dst hdst => ?_⟩
    have hdst' : dst.length = bs.length := Int.ofNat_inj.mp hdst
    rw [obfuscate, copyBytes_of_length_eq hdst'.symm]
  | timestamp =>
    refine ⟨be32 draws.clock, rfl, fun dst hdst => ?_⟩
    have hdst' : dst.length = 4 := Int.ofNat_inj.mp hdst
    have hwrite : writeAt (dst ++ []) 0 (be32 draws.clock) = some (be32 draws.clock ++ []) :=
      writeAt_zero (by rw [be32_length, hdst'])
    rwa [append_nil, append_nil] at hwrite
  | rand n =>
    have hn : (n.toNat : ℤ) = n := Int.toNat_of_nonneg hlen
    refine ⟨randRead draws.random n.toNat, by simp [randRead, obfuscatedLen, hn],
      fun dst hdst => ?_⟩
    refine onHead_eq hdst fun p hp => ?_
    rw [show p.length = n.toNat from by omega]
  | randChar n =>
    have hn : (n.toNat : ℤ) = n := Int.toNat_of_nonneg hlen
    refine ⟨(randRead draws.random n.toNat).map fun b => chars52.getD (b.toNat % 52) 0,
      by simp [randRead, obfuscatedLen, hn], fun dst hdst => ?_⟩
    refine onHead_eq hdst fun p hp => ?_
    rw [show p.length = n.toNat from by omega]
  | randDigit n =>
    have hn : (n.toNat : ℤ) = n := Int.toNat_of_nonneg hlen
    refine ⟨(randRead draws.random n.toNat).map fun b => digits10.getD (b.toNat % 10) 0,
      by simp [randRead, obfuscatedLen, hn], fun dst hdst => ?_⟩
    refine onHead_eq hdst fun p hp => ?_
    rw [show p.length = n.toNat from by omega]
  | data =>
    -- there is no source: the part is empty
    refine ⟨[], rfl, fun dst hdst => ?_⟩
    have hdst' : dst.length = 0 := Int.ofNat_inj.mp hdst
    rw [length_eq_zero_iff.mp hdst']
    rfl
  | dataString =>
    refine ⟨[], rfl, fun dst hdst => ?_⟩
    have hdst' : dst.length = 0 := Int.ofNat_inj.mp hdst
    rw [length_eq_zero_iff.mp hdst']
    rfl
  | dataSize n =>
    have hn : (n.toNat : ℤ) = n := Int.toNat_of_nonneg hlen
    refine ⟨(leBytes n.toNat 0).reverse, by simp [obfuscatedLen, hn], fun dst hdst => ?_⟩
    have hdst' : dst.length = n.toNat := by
      rw [obfuscatedLen] at hdst
      omega
    rw [obfuscate, length_nil, putSize_done (le_of_eq hdst'.symm), ← hdst', drop_length, append_nil]
  -- the datagram does not depend on what was in the buffer before
  | imitate proto n =>
    have hn : (n.toNat : ℤ) = n := Int.toNat_of_nonneg hlen
    obtain ⟨filler, hfiller, hfill⟩ :=
      imitateFillWhole_part n.toNat (imitateJunkSeed draws.counter) hbuilt
    refine ⟨filler, by rw [hfiller, hn]; rfl, fun dst hdst => ?_⟩
    exact onHead_eq hdst fun p hp => hfill p (by omega)
  | qinit sni =>
    obtain ⟨pkt, hpkt, hpktLen⟩ := buildQUICInitial_yields crypto draws.random hbuilt
    refine ⟨pkt, by rw [hpktLen]; rfl, fun dst hdst => ?_⟩
    refine onHead_eq hdst fun p hp => ?_
    rw [hpkt, map_some, copyBytes_of_length_eq (by rw [hpktLen]; exact_mod_cast hp.symm)]

/-! ## §5 Writing stays in the buffer -/

theorem onHead_length {n : ℤ}
    (hwrite : ∀ p part, write p = some part → part.length = p.length)
    (h : onHead dst n write = some out) :
    out.length = dst.length := by
  unfold onHead onPadding at h
  split_ifs at h with hn hfit
  obtain ⟨part, hpart, rfl⟩ := map_eq_some_iff.mp h
  rw [length_append, hwrite _ _ hpart, length_take, length_drop]
  omega

theorem putSize_length {v : ℕ} (h : putSize n v dst = some out) : out.length = dst.length := by
  induction n generalizing v dst with
  | zero => cases h; rfl
  | succ n ih =>
    obtain ⟨dst', hwrite, hrest⟩ := bind_eq_some_iff.mp h
    rw [ih hrest, writeAt_length hwrite]

theorem Obf.obfuscate_length {crypto : QuicCrypto} {draws : Draws} {src : Bytes}
    (hbuilt : o.Built) (h : o.obfuscate crypto draws dst src = some out) :
    out.length = dst.length := by
  cases o with
  | bytes bs => cases h; exact copyBytes_length _ _
  | timestamp => exact writeAt_length h
  | rand n =>
    refine onHead_length (fun p part hpart => ?_) h
    cases hpart
    simp [randRead]
  | randChar n =>
    refine onHead_length (fun p part hpart => ?_) h
    cases hpart
    simp [randRead]
  | randDigit n =>
    refine onHead_length (fun p part hpart => ?_) h
    cases hpart
    simp [randRead]
  | data => cases h; exact copyBytes_length _ _
  | dataString => exact writeAt_length h
  | dataSize n => exact putSize_length h
  | imitate proto n =>
    refine onHead_length (fun p part hpart => ?_) h
    obtain ⟨filler, hfiller, hfill⟩ :=
      imitateFillWhole_part p.length (imitateJunkSeed draws.counter) hbuilt
    cases (hfill p rfl).symm.trans hpart
    exact hfiller
  | qinit sni =>
    refine onHead_length (fun p part hpart => ?_) h
    obtain ⟨pkt, -, rfl⟩ := map_eq_some_iff.mp hpart
    exact copyBytes_length _ _

theorem onSlice_length {low high : ℤ}
    (hwrite : ∀ p part, write p = some part → part.length = p.length)
    (h : onSlice dst low high write = some out) : out.length = dst.length := by
  unfold onSlice at h
  split_ifs at h with hbounds
  obtain ⟨part, hpart, rfl⟩ := map_eq_some_iff.mp h
  rw [length_append, length_append, hwrite _ _ hpart, length_take, length_take,
    length_drop, length_drop]
  omega

theorem obfuscateFrom_length {crypto : QuicCrypto} {draws : ℕ → Draws} {src : Bytes} {i : ℕ}
    {written : ℤ} (hbuilt : ∀ o ∈ obfs, o.Built)
    (h : obfuscateFrom crypto draws src i obfs written dst = some out) :
    out.length = dst.length := by
  induction obfs generalizing i written dst with
  | nil => cases h; rfl
  | cons o obfs ih =>
    obtain ⟨ho, hobfs⟩ := forall_mem_cons.mp hbuilt
    obtain ⟨dst', hslice, hrest⟩ := bind_eq_some_iff.mp h
    rw [ih hobfs hrest, onSlice_length (fun p part => Obf.obfuscate_length ho) hslice]

/-! ## §6 The length of a chain -/

/-- The sum of the lengths of tags, without wrapping. -/
def totalLen (obfs : List Obf) : ℤ := (obfs.map (Obf.obfuscatedLen 0)).sum

theorem totalLen_cons (o : Obf) (obfs : List Obf) :
    totalLen (o :: obfs) = Obf.obfuscatedLen 0 o + totalLen obfs := by
  rw [totalLen, map_cons, sum_cons, totalLen]

theorem totalLen_nonneg (h : ∀ o ∈ obfs, 0 ≤ Obf.obfuscatedLen 0 o) : 0 ≤ totalLen obfs := by
  refine sum_nonneg fun n hn => ?_
  obtain ⟨o, ho, rfl⟩ := mem_map.mp hn
  exact h o ho

theorem foldl_wrapInt (hnonneg : ∀ o ∈ obfs, 0 ≤ Obf.obfuscatedLen 0 o) {t : ℤ} (ht : 0 ≤ t)
    (hsum : t + totalLen obfs < 2 ^ 63) :
    obfs.foldl (fun total o => wrapInt 64 (total + Obf.obfuscatedLen 0 o)) t =
      t + totalLen obfs := by
  induction obfs generalizing t with
  | nil => rw [foldl_nil, totalLen, map_nil, sum_nil, add_zero]
  | cons o obfs ih =>
    obtain ⟨ho, hobfs⟩ := forall_mem_cons.mp hnonneg
    have hrest := totalLen_nonneg hobfs
    rw [totalLen_cons] at hsum ⊢
    rw [foldl_cons, wrapInt_of_lt (by omega) (by omega), ih hobfs (by omega) (by omega), add_assoc]

theorem foldl_wrapInt_lt (obfs : List Obf) {t : ℤ} (ht : t < 2 ^ 63) :
    obfs.foldl (fun total o => wrapInt 64 (total + Obf.obfuscatedLen 0 o)) t < 2 ^ 63 := by
  induction obfs generalizing t with
  | nil => exact ht
  | cons o obfs ih => exact ih (wrapInt_lt _)

/-! ## §7 Whole packets -/

theorem onSlice_done {done room rest part : Bytes} {low high : ℤ}
    (hlow : low = done.length) (hhigh : high = low + room.length)
    (hwrite : write room = some part) :
    onSlice (done ++ (room ++ rest)) low high write = some (done ++ (part ++ rest)) := by
  have hlowNat : low.toNat = done.length := by omega
  have hhighNat : high.toNat = done.length + room.length := by omega
  have hsize : (high - low).toNat = room.length := by omega
  have hfits : 0 ≤ low ∧ low ≤ high ∧ high ≤ (done ++ (room ++ rest)).length := by
    rw [length_append, length_append]
    omega
  rw [onSlice, if_pos hfits, hlowNat, hhighNat, hsize, drop_left, take_left, take_left, hwrite,
    map_some, ← append_assoc done room, drop_left' (length_append ..)]

theorem obfuscateFrom_parts (crypto : QuicCrypto) (draws : ℕ → Draws)
    (hbuilt : ∀ o ∈ obfs, o.Built) (hnonneg : ∀ o ∈ obfs, 0 ≤ Obf.obfuscatedLen 0 o) (i : ℕ) :
    ∃ parts : List Bytes,
      List.Forall₂ (fun o part => (part.length : ℤ) = Obf.obfuscatedLen 0 o) obfs parts ∧
        ∀ done rest : Bytes, (rest.length : ℤ) = totalLen obfs → done.length + totalLen obfs <
          2 ^ 63 →
          obfuscateFrom crypto draws [] i obfs done.length (done ++ rest) =
            some (done ++ parts.flatten) := by
  -- the buffer is what has been written, and the room for the tags that are left
  induction obfs generalizing i with
  | nil =>
    refine ⟨[], List.Forall₂.nil, fun done rest hrest _ => ?_⟩
    have hempty : rest = [] := length_eq_zero_iff.mp (by simpa [totalLen] using hrest)
    rw [hempty]
    rfl
  | cons o obfs ih =>
    obtain ⟨ho, hobfs⟩ := forall_mem_cons.mp hbuilt
    obtain ⟨hlen, hlens⟩ := forall_mem_cons.mp hnonneg
    obtain ⟨part, hpartLen, hpart⟩ := Obf.obfuscate_part crypto (draws i) ho hlen
    obtain ⟨parts, hforall, hparts⟩ := ih hobfs hlens (i + 1)
    refine ⟨part :: parts, List.Forall₂.cons hpartLen hforall, fun done rest hrest hfits => ?_⟩
    have htotal := totalLen_nonneg hlens
    rw [totalLen_cons] at hrest hfits
    -- the room of this tag, and that of the others
    have hroom : ((rest.take part.length).length : ℤ) = Obf.obfuscatedLen 0 o := by
      rw [length_take]
      omega
    have hothers : ((rest.drop part.length).length : ℤ) = totalLen obfs := by
      rw [length_drop]
      omega
    have hnext : wrapInt 64 (done.length + Obf.obfuscatedLen 0 o) = (done ++ part).length := by
      rw [wrapInt_of_lt (by omega) (by omega), length_append]
      omega
    have hslice : onSlice (done ++ rest) done.length (done ++ part).length
        (fun p => o.obfuscate crypto (draws i) p []) =
          some (done ++ (part ++ rest.drop part.length)) := by
      have hdone : onSlice (done ++ (rest.take part.length ++ rest.drop part.length)) done.length
          (done ++ part).length (fun p => o.obfuscate crypto (draws i) p []) =
            some (done ++ (part ++ rest.drop part.length)) :=
        onSlice_done rfl (by rw [length_append]; omega) (hpart _ hroom)
      rwa [take_append_drop] at hdone
    have hlater :=
      hparts (done ++ part) (rest.drop part.length) hothers (by rw [length_append]; omega)
    rw [obfuscateFrom]
    simp only [length_nil, cast_zero, hnext, hslice, bind_eq_bind, bind_some]
    rw [← List.append_assoc, hlater, List.flatten_cons, List.append_assoc]

theorem lengths_of_parts {parts : List Bytes}
    (h : List.Forall₂ (fun o part => (part.length : ℤ) = Obf.obfuscatedLen 0 o) obfs parts) :
    (∀ o ∈ obfs, 0 ≤ Obf.obfuscatedLen 0 o) ∧ (parts.flatten.length : ℤ) = totalLen obfs := by
  induction h with
  | nil => exact ⟨fun _ ho => absurd ho not_mem_nil, rfl⟩
  | cons hpart _ ih =>
    refine ⟨forall_mem_cons.mpr ⟨hpart ▸ Int.natCast_nonneg _, ih.1⟩, ?_⟩
    rw [flatten_cons, length_append, totalLen_cons, cast_add, hpart, ih.2]

theorem ObfChain.obfuscatedLen_eq (hnonneg : ∀ o ∈ c.obfs, 0 ≤ Obf.obfuscatedLen 0 o)
    (hsum : totalLen c.obfs < 2 ^ 63) : c.obfuscatedLen 0 = totalLen c.obfs := by
  rw [obfuscatedLen, foldl_wrapInt hnonneg (Int.le_refl 0) (by omega), zero_add]

theorem ObfChain.safeToSend (crypto : QuicCrypto) (hbuilt : ∀ o ∈ c.obfs, o.Built)
    (hnonneg : ∀ o ∈ c.obfs, 0 ≤ Obf.obfuscatedLen 0 o) (hsum : totalLen c.obfs < 2 ^ 63) :
    c.SafeToSend crypto := by
  have hlen := obfuscatedLen_eq hnonneg hsum
  refine ⟨hlen ▸ totalLen_nonneg hnonneg, fun draws => ?_⟩
  obtain ⟨parts, hforall, hparts⟩ := obfuscateFrom_parts crypto draws hbuilt hnonneg 0
  refine ⟨parts, hforall, fun dst hdst => ?_⟩
  exact hparts [] dst (hdst.trans hlen) (by simpa using hsum)

/-- What a packet that has been made says about the tags that are left: no length is negative, and
no sum has wrapped. -/
theorem lengths_of_obfuscateFrom {crypto : QuicCrypto} {draws : ℕ → Draws} {i : ℕ}
    (hobfs : ∀ o ∈ obfs, -2 ^ 63 ≤ Obf.obfuscatedLen 0 o ∧ Obf.obfuscatedLen 0 o < 2 ^ 63)
    {written : ℤ} (hwritten : 0 ≤ written) (hlt : written < 2 ^ 63)
    (h : obfuscateFrom crypto draws [] i obfs written dst = some out) :
    (∀ o ∈ obfs, 0 ≤ Obf.obfuscatedLen 0 o) ∧ written + totalLen obfs < 2 ^ 63 := by
  induction obfs generalizing i written dst with
  | nil => exact ⟨fun _ ho => absurd ho not_mem_nil, by rw [totalLen, map_nil, sum_nil]; omega⟩
  | cons o obfs ih =>
    obtain ⟨ho, hrest⟩ := forall_mem_cons.mp hobfs
    rw [obfuscateFrom] at h
    simp only [length_nil, cast_zero, bind_eq_bind] at h
    obtain ⟨dst', hslice, hlater⟩ := bind_eq_some_iff.mp h
    -- the slice of the tag does not end before it starts
    have hbounds : written ≤ wrapInt 64 (written + Obf.obfuscatedLen 0 o) := by
      unfold onSlice at hslice
      split at hslice
      · next hbounds => exact hbounds.2.1
      · cases hslice
    have hsum : written + Obf.obfuscatedLen 0 o < 2 ^ 63 := by
      by_contra hover
      have hneg := wrapInt_neg (v := written + Obf.obfuscatedLen 0 o) (by omega) (by omega)
      omega
    rw [wrapInt_eq (by omega) hsum] at hbounds hlater
    obtain ⟨hnonneg, htotal⟩ := ih hrest (by omega) hsum hlater
    refine ⟨forall_mem_cons.mpr ⟨by omega, hnonneg⟩, ?_⟩
    rw [totalLen_cons]
    omega

/-- **A chain can be sent** if and only if no tag has a negative length and the lengths add up to an
`int`. -/
theorem ObfChain.safeToSend_iff (crypto : QuicCrypto) {spec : Bytes} {c : ObfChain}
    (hspec : newObfChain spec = .ok c) :
    c.SafeToSend crypto ↔ (∀ o ∈ c.obfs, 0 ≤ Obf.obfuscatedLen 0 o) ∧ totalLen c.obfs < 2 ^ 63 := by
  have hbuilt := built_of_newObfChain hspec
  constructor
  · rintro ⟨hlen, hwrites⟩
    obtain ⟨parts, hforall, hparts⟩ :=
      hwrites fun _ => { random := fun _ => 0, clock := 0, counter := 0 }
    obtain ⟨hnonneg, hflat⟩ := lengths_of_parts hforall
    have hout := hparts (replicate (c.obfuscatedLen 0).toNat 0) (by rw [length_replicate]; omega)
    have hsame := obfuscateFrom_length hbuilt hout
    have hlt : c.obfuscatedLen 0 < 2 ^ 63 := foldl_wrapInt_lt c.obfs (by decide)
    rw [length_replicate] at hsame
    exact ⟨hnonneg, by omega⟩
  · rintro ⟨hnonneg, hsum⟩
    exact safeToSend crypto hbuilt hnonneg hsum

def QuicCrypto.zeros : QuicCrypto where
  hkdfExtract _ _ := List.replicate 32 0
  hkdfExpand _ _ n := List.replicate n 0
  gcmSeal _ _ plaintext _ := List.replicate (plaintext.length + 16) 0
  encryptBlock _ _ := List.replicate 16 0
  hkdfExpand_length _ _ _ := List.length_replicate
  gcmSeal_length _ _ _ _ := List.length_replicate
  encryptBlock_length _ _ := List.length_replicate

/-- Two bytes and twelve random ones. -/
theorem ObfChain.safeToSend_bytes_rand :
    ∃ c, newObfChain (ascii "<b 0x00ff>.<r 12>") = .ok c ∧ c.obfuscatedLen 0 = 14 ∧
      c.SafeToSend QuicCrypto.zeros := by
  have hspec : newObfChain (ascii "<b 0x00ff>.<r 12>") =
      .ok { spec := ascii "<b 0x00ff>.<r 12>", obfs := [.bytes [0x00, 0xff], .rand 12] } := by
        decide
  refine ⟨_, hspec, by decide, (ObfChain.safeToSend_iff QuicCrypto.zeros hspec).mpr ⟨?_, by decide⟩⟩
  decide

/-- A negative length is accepted: alone it makes the length of the packet negative, and behind
other tags it makes the slice of its part end before it starts. -/
theorem ObfChain.negative_length_accepted :
    (∃ c, newObfChain (ascii "<r -1>") = .ok c ∧ c.obfuscatedLen 0 = -1 ∧
      ¬c.SafeToSend QuicCrypto.zeros) ∧
      ∃ c, newObfChain (ascii "<b 0x00ff><r -1>") = .ok c ∧ c.obfuscatedLen 0 = 1 ∧
        ∀ draws dst, dst.length = 1 → c.obfuscate QuicCrypto.zeros draws dst [] = none := by
  constructor
  · refine ⟨{ spec := ascii "<r -1>", obfs := [.rand (-1)] }, by decide, by decide, fun hsafe => ?_⟩
    exact absurd hsafe.nonneg (by decide)
  · refine ⟨{ spec := ascii "<b 0x00ff><r -1>", obfs := [.bytes [0x00, 0xff], .rand (-1)] }, by
      decide, by decide, fun draws dst hdst => ?_⟩
    -- the first tag does not fit the packet that is too short by one
    have hnext :
        wrapInt 64 (0 + Obf.obfuscatedLen (([] : Bytes).length : ℤ) (.bytes [0x00, 0xff])) = 2 := by
      decide
    rw [ObfChain.obfuscate, obfuscateFrom]
    rw [hnext, onSlice, if_neg (by rw [hdst]; decide)]
    rfl

end AmneziaWG.Device
