import AmneziaWG.Device.Uapi.Headers

/-!
# Peers and Their Keys under Configuration Requests

What ties the peer map, the keys and the routes of a device together: a peer is stored under its own
key, which is not that of the device, its precomputed secret belongs to the private key in force,
and only peers of the map own routes.  Every way to remove a peer takes its routes along, and a
change of the private key computes every secret again, so this survives all requests, whether they
are accepted or not.

## Main results

- `Bookkept.setPrivateKey`, `Bookkept.removePeer`, `Bookkept.newPeer`: what the operations keep.
- `peers_bookkept`: every sequence of requests keeps the books.
-/

set_option linter.dupNamespace false

namespace AmneziaWG.Device

open AmneziaWG.Lib List Nat Function

namespace Device

variable {B E : Type}
variable {key : Bytes} {p : ℕ}

/-! ## §1 The books -/

def identity (d : Device B E) (p : ℕ) : Bytes × Bytes :=
  ((d.peer p).remoteStatic, (d.peer p).precomputedStaticStatic)

structure Bookkept (env : Env B E) (d : Device B E) : Prop where
  /-- A key has one peer. -/
  unique : ∀ k p p', (k, p) ∈ d.keyMap → (k, p') ∈ d.keyMap → p = p'
  /-- A peer is stored under its key, with the secret of the private key in force. -/
  stored : ∀ k p, (k, p) ∈ d.keyMap → d.identity p = (k, env.scalarMult d.privateKey k)
  foreign : ∀ k p, (k, p) ∈ d.keyMap → k ≠ d.publicKey
  allocated : ∀ k p, (k, p) ∈ d.keyMap → p < d.nextPeer
  /-- Only peers of the map have routes. -/
  routes : ∀ f pfx p, d.allowedips.Owns f pfx p → ∃ k, (k, p) ∈ d.keyMap

/-- A change that leaves the books alone. -/
structure Unbooked (d d' : Device B E) : Prop where
  keyMap : d'.keyMap = d.keyMap
  publicKey : d'.publicKey = d.publicKey
  privateKey : d'.privateKey = d.privateKey
  allowedips : d'.allowedips = d.allowedips
  nextPeer : d.nextPeer ≤ d'.nextPeer
  identity : ∀ p < d.nextPeer, d'.identity p = d.identity p

theorem Unbooked.refl (d : Device B E) : Unbooked d d :=
  ⟨rfl, rfl, rfl, rfl, le_refl _, fun _ _ => rfl⟩

theorem Unbooked.trans {d d' d'' : Device B E} (h : Unbooked d d') (h' : Unbooked d' d'') :
    Unbooked d d'' where
  keyMap := h'.keyMap.trans h.keyMap
  publicKey := h'.publicKey.trans h.publicKey
  privateKey := h'.privateKey.trans h.privateKey
  allowedips := h'.allowedips.trans h.allowedips
  nextPeer := le_trans h.nextPeer h'.nextPeer
  identity p hp := (h'.identity p (lt_of_lt_of_le hp h.nextPeer)).trans (h.identity p hp)

variable {env : Env B E} {d d' : Device B E}

theorem Bookkept.unbooked (h : Bookkept env d) (hd : Unbooked d d') : Bookkept env d' where
  unique := by
    rw [hd.keyMap]
    exact h.unique
  stored k p hmem := by
    rw [hd.keyMap] at hmem
    rw [hd.identity p (h.allocated k p hmem), hd.privateKey]
    exact h.stored k p hmem
  foreign k p hmem := by
    rw [hd.keyMap] at hmem
    rw [hd.publicKey]
    exact h.foreign k p hmem
  allocated k p hmem := by
    rw [hd.keyMap] at hmem
    exact lt_of_lt_of_le (h.allocated k p hmem) hd.nextPeer
  routes f pfx p howns := by
    rw [hd.allowedips] at howns
    rw [hd.keyMap]
    exact h.routes f pfx p howns

/-! ## §2 Changes outside the books -/

section

variable (d : Device B E) (q : ℕ)

theorem identity_modifyPeer {f : Peer E → Peer E}
    (hf : ∀ peer : Peer E, (f peer).remoteStatic = peer.remoteStatic ∧
      (f peer).precomputedStaticStatic = peer.precomputedStaticStatic) (p : ℕ) :
    (d.modifyPeer q f).identity p = d.identity p := by
  unfold identity modifyPeer
  dsimp only
  by_cases hp : p = q
  · rw [hp, update_self, (hf _).1, (hf _).2]
  · rw [update_of_ne hp]

theorem Unbooked.modifyPeer {f : Peer E → Peer E}
    (hf : ∀ peer : Peer E, (f peer).remoteStatic = peer.remoteStatic ∧
      (f peer).precomputedStaticStatic = peer.precomputedStaticStatic) :
        Unbooked d (d.modifyPeer q f) :=
  ⟨rfl, rfl, rfl, rfl, le_refl _, fun p _ => identity_modifyPeer d q hf p⟩

theorem Unbooked.allocPeer (peer : Peer E) : Unbooked d (d.allocPeer peer) := by
  refine ⟨rfl, rfl, rfl, rfl, Nat.le_succ _, fun p hp => ?_⟩
  unfold Device.identity Device.allocPeer
  dsimp only
  rw [Function.update_of_ne (Nat.ne_of_lt hp)]

theorem Unbooked.net (net : Net B) : Unbooked d { d with net } :=
  ⟨rfl, rfl, rfl, rfl, le_refl _, fun _ _ => rfl⟩

theorem socketRel_unbooked : SocketRel (Unbooked : Device B E → Device B E → Prop) where
  refl := Unbooked.refl
  trans := Unbooked.trans
  net := Unbooked.net
  clearSrc d p := Unbooked.modifyPeer d p fun _ => ⟨rfl, rfl⟩

theorem Unbooked.handlePostConfig (ipc : IpcSetPeer) : Unbooked d (d.handlePostConfig ipc) :=
  handlePostConfig_rel Unbooked.refl Unbooked.trans
    (fun d p _ _ hf => Unbooked.modifyPeer d p fun peer =>
      ⟨by rw [hf peer], by rw [hf peer]⟩)
    (fun _ _ => ⟨rfl, rfl, rfl, rfl, le_refl _, fun _ _ => rfl⟩) d

end

/-! ## §3 Removing peers -/

theorem Bookkept.removePeerLocked (h : Bookkept env d)
    (hkey : ∀ p', (key, p') ∈ d.keyMap → p' = p) : Bookkept env (d.removePeerLocked p key) := by
  have hmem : ∀ k q, (k, q) ∈ (d.removePeerLocked p key).keyMap ↔ (k, q) ∈ d.keyMap ∧ k ≠ key := by
    intro k q
    simp [Device.removePeerLocked, Device.modifyPeer, mem_filter]
  have hidentity : ∀ q, (d.removePeerLocked p key).identity q = d.identity q := fun q =>
    identity_modifyPeer { d with allowedips := d.allowedips.removeByPeer p } p
      (f := fun peer => { peer with isRunning := false }) (fun _ => ⟨rfl, rfl⟩) q
  exact
    { unique := fun k q q' hq hq' => h.unique k q q' ((hmem k q).mp hq).1 ((hmem k q').mp hq').1
      stored := fun k q hq => (hidentity q).trans (h.stored k q ((hmem k q).mp hq).1)
      foreign := fun k q hq => h.foreign k q ((hmem k q).mp hq).1
      allocated := fun k q hq => h.allocated k q ((hmem k q).mp hq).1
      routes := by
        intro f pfx q howns
        obtain ⟨hold, hne⟩ := (d.allowedips.owns_removeByPeer_iff p f pfx q).mp howns
        obtain ⟨k, hk⟩ := h.routes f pfx q hold
        refine ⟨k, (hmem k q).mpr ⟨hk, ?_⟩⟩
        rintro rfl
        exact hne (hkey q hk) }

theorem mem_of_lookupPeer (h : d.lookupPeer key = some p) : (key, p) ∈ d.keyMap := by
  obtain ⟨before, behind, hsplit, -⟩ := lookup_eq_some_iff.mp h
  rw [hsplit]
  exact mem_append_right before mem_cons_self

theorem Bookkept.removePeer (h : Bookkept env d) (key : Bytes) :
    Bookkept env (d.removePeer key) := by
  unfold Device.removePeer
  split
  · next p hp => exact h.removePeerLocked fun p' hp' => h.unique key p' p hp' (mem_of_lookupPeer hp)
  · exact h

theorem Bookkept.removeSelected (h : Bookkept env d) (sel : Bytes → Prop) [DecidablePred sel]
    {l : List (Bytes × ℕ)} (hl : ∀ k p, (k, p) ∈ l → ∀ p', (k, p') ∈ d.keyMap → p' = p) :
    let d' := l.foldl (fun d (key, p) => if sel (d.peer p).remoteStatic then d.removePeerLocked p
      key else d) d
    Bookkept env d' ∧ (∀ entry ∈ d'.keyMap, entry ∈ d.keyMap) ∧ d'.nextPeer = d.nextPeer ∧
      (∀ k p, (k, p) ∈ l → (k, p) ∈ d'.keyMap → ¬sel k) := by
  -- the source goes through the map as it was before the first removal
  induction l generalizing d with
  | nil => exact ⟨h, fun _ hmem => hmem, rfl, fun _ _ hmem => absurd hmem not_mem_nil⟩
  | cons entry l ih =>
    obtain ⟨key, p⟩ := entry
    let d₁ := if sel (d.peer p).remoteStatic then d.removePeerLocked p key else d
    -- what one round does
    have hstep : Bookkept env d₁ ∧ (∀ entry ∈ d₁.keyMap, entry ∈ d.keyMap) ∧
      d₁.nextPeer = d.nextPeer ∧
        ((key, p) ∈ d₁.keyMap → ¬sel key) := by
      by_cases hsel : sel (d.peer p).remoteStatic
      · have hd₁ : d₁ = d.removePeerLocked p key := if_pos hsel
        rw [hd₁]
        refine ⟨h.removePeerLocked (hl key p mem_cons_self), fun entry hmem => ?_, rfl,
          fun hmem => ?_⟩
        · exact (mem_filter.mp hmem).1
        · simp [Device.removePeerLocked, Device.modifyPeer, mem_filter] at hmem
      · have hd₁ : d₁ = d := if_neg hsel
        rw [hd₁]
        refine ⟨h, fun _ hmem => hmem, rfl, fun hmem => ?_⟩
        have hremote : (d.peer p).remoteStatic = key := congrArg Prod.fst (h.stored key p hmem)
        rwa [hremote] at hsel
    obtain ⟨h₁, hsub, hnext, hfirst⟩ := hstep
    obtain ⟨h', hsub', hnext', hrest⟩ := ih h₁ (fun k q hmem q' hq' =>
      hl k q (mem_cons_of_mem _ hmem) q' (hsub _ hq'))
    refine ⟨h', fun entry hmem => hsub entry (hsub' entry hmem), hnext'.trans hnext,
      fun k q hmem hq => ?_⟩
    rcases mem_cons.mp hmem with heq | hmem
    · cases heq
      exact hfirst (hsub' _ hq)
    · exact hrest k q hmem hq

theorem Bookkept.removeAllPeers (h : Bookkept env d) : Bookkept env d.removeAllPeers := by
  have hall := h.removeSelected (fun _ => True) (l := d.keyMap) fun k p hp p' hp' =>
    h.unique k p' p hp' hp
  simp only [if_true] at hall
  unfold Device.removeAllPeers
  dsimp only at hall ⊢
  generalize d.keyMap.foldl (fun d (entry : Bytes × ℕ) => d.removePeerLocked entry.2 entry.1) d =
    d₁ at hall ⊢
  obtain ⟨h₁, hsub, -, hnone⟩ := hall
  refine ⟨fun _ _ _ hmem => absurd hmem not_mem_nil, fun _ _ hmem => absurd hmem not_mem_nil,
    fun _ _ hmem => absurd hmem not_mem_nil, fun _ _ hmem => absurd hmem not_mem_nil, ?_⟩
  intro f pfx p howns
  obtain ⟨k, hk⟩ := h₁.routes f pfx p howns
  exact absurd trivial (hnone k p (hsub _ hk) hk)

/-! ## §4 New keys -/

theorem identity_recompute (env : Env B E) (sk : Bytes) (l : List (Bytes × ℕ)) (d : Device B E) :
    let d' := l.foldl (fun d (_, p) => d.modifyPeer p fun peer =>
      { peer with precomputedStaticStatic := env.scalarMult sk peer.remoteStatic }) d
    d'.keyMap = d.keyMap ∧ d'.publicKey = d.publicKey ∧ d'.privateKey = d.privateKey ∧
      d'.allowedips = d.allowedips ∧ d'.nextPeer = d.nextPeer ∧
      ∀ p, (d'.peer p).remoteStatic = (d.peer p).remoteStatic ∧
        ((∃ k, (k, p) ∈ l) → (d'.peer p).precomputedStaticStatic =
          env.scalarMult sk (d.peer p).remoteStatic) ∧
        ((d'.peer p).precomputedStaticStatic = (d.peer p).precomputedStaticStatic ∨
          (d'.peer p).precomputedStaticStatic = env.scalarMult sk (d.peer p).remoteStatic) := by
  induction l generalizing d with
  | nil =>
    refine ⟨rfl, rfl, rfl, rfl, rfl, fun p => ⟨rfl, ?_, Or.inl rfl⟩⟩
    rintro ⟨k, hk⟩
    cases hk
  | cons entry l ih =>
    obtain ⟨key, q⟩ := entry
    obtain ⟨hmap, hpublic, hprivate, hips, hnext, hpeers⟩ := ih (d.modifyPeer q fun peer =>
      { peer with precomputedStaticStatic := env.scalarMult sk peer.remoteStatic })
    refine ⟨hmap, hpublic, hprivate, hips, hnext, fun p => ?_⟩
    obtain ⟨hremote, hlisted, hcases⟩ := hpeers p
    dsimp only [Device.modifyPeer] at hremote hlisted hcases
    by_cases hp : p = q
    · -- this round computes the secret of `p`; the later ones leave it or compute it again
      subst hp
      rw [update_self] at hremote hlisted hcases
      refine ⟨hremote, fun _ => ?_, ?_⟩
      · rcases hcases with hsame | hnew
        · exact hsame
        · exact hnew
      · rcases hcases with hsame | hnew
        · exact Or.inr hsame
        · exact Or.inr hnew
    · rw [update_of_ne hp] at hremote hlisted hcases
      refine ⟨hremote, ?_, hcases⟩
      rintro ⟨k, hk⟩
      rcases mem_cons.mp hk with heq | hk
      · cases heq
        exact absurd rfl hp
      · exact hlisted ⟨k, hk⟩

theorem Bookkept.setPrivateKey (h : Bookkept env d) (sk : Bytes) :
    Bookkept env (d.setPrivateKey env sk) := by
  unfold Device.setPrivateKey
  split
  · exact h
  · dsimp only
    -- first the peer with the own key goes, and then all secrets are computed again
    have hremoved := h.removeSelected (fun k => k = env.scalarBaseMult sk) (l := d.keyMap)
      fun k p hp p' hp' => h.unique k p' p hp' hp
    dsimp only at hremoved
    generalize d.keyMap.foldl (fun d (entry : Bytes × ℕ) =>
      if (d.peer entry.2).remoteStatic = env.scalarBaseMult sk then
        d.removePeerLocked entry.2 entry.1
      else d) d = d₁ at hremoved ⊢
    obtain ⟨h₁, hsub, -, hforeign⟩ := hremoved
    have hrecompute := identity_recompute env sk d₁.keyMap
      { d₁ with privateKey := sk, publicKey := env.scalarBaseMult sk }
    dsimp only at hrecompute
    generalize d₁.keyMap.foldl
      (fun (d : Device B E) (entry : Bytes × ℕ) => d.modifyPeer entry.2 fun peer =>
      { peer with precomputedStaticStatic := env.scalarMult sk peer.remoteStatic })
      { d₁ with privateKey := sk, publicKey := env.scalarBaseMult sk } = d₂ at hrecompute ⊢
    obtain ⟨hmap, hpublic, hprivate, hips, hnext, hpeers⟩ := hrecompute
    refine ⟨?_, ?_, ?_, ?_, ?_⟩
    · rw [hmap]
      exact h₁.unique
    · intro k p hp
      rw [hmap] at hp
      obtain ⟨hremote, hlisted, -⟩ := hpeers p
      have hkey : (d₁.peer p).remoteStatic = k := congrArg Prod.fst (h₁.stored k p hp)
      rw [identity, hremote, hlisted ⟨k, hp⟩, hkey, hprivate]
    · intro k p hp
      rw [hmap] at hp
      rw [hpublic]
      exact hforeign k p (hsub _ hp) hp
    · intro k p hp
      rw [hmap] at hp
      rw [hnext]
      exact h₁.allocated k p hp
    · intro f pfx p howns
      rw [hips] at howns
      rw [hmap]
      exact h₁.routes f pfx p howns

theorem not_mem_of_lookupPeer (h : d.lookupPeer key = none) (p : ℕ) : (key, p) ∉ d.keyMap := by
  intro hmem
  have hne := lookup_eq_none_iff.mp h (key, p) hmem
  simp at hne

/-- A new peer of a key that is neither in the map nor that of the device. -/
theorem Bookkept.newPeer (h : Bookkept env d) {pk : Bytes} (hown : d.publicKey ≠ pk)
    (hnew : d.newPeer env pk = .ok (d', p)) : Bookkept env d' ∧ (pk, p) ∈ d'.keyMap := by
  unfold Device.newPeer at hnew
  split_ifs at hnew with hclosed hmany hthere
  have hfresh : ∀ q, (pk, q) ∉ d.keyMap := not_mem_of_lookupPeer (by simpa using hthere)
  cases hnew
  -- one entry more, under a number that no peer has
  have hmem : ∀ k q, (k, q) ∈ d.keyMap ++ [(pk, d.nextPeer)] ↔
      (k, q) ∈ d.keyMap ∨ (k = pk ∧ q = d.nextPeer) := by
    intro k q
    rw [mem_append, mem_singleton, Prod.mk.injEq]
  refine ⟨⟨?_, ?_, ?_, ?_, ?_⟩, (hmem _ _).mpr (Or.inr ⟨rfl, rfl⟩)⟩
  · intro k q q' hq hq'
    rcases (hmem k q).mp hq with hq | ⟨rfl, rfl⟩ <;> rcases (hmem k q').mp hq' with hq' | ⟨hk, rfl⟩
    · exact h.unique k q q' hq hq'
    · exact absurd (hk ▸ hq) (hfresh q)
    · exact absurd hq' (hfresh q')
    · rfl
  · intro k q hq
    rcases (hmem k q).mp hq with hq | ⟨rfl, rfl⟩
    · have hlt : q ≠ d.nextPeer := Nat.ne_of_lt (h.allocated k q hq)
      have hstored := h.stored k q hq
      unfold identity at hstored ⊢
      simp only [Device.allocPeer, update_of_ne hlt]
      exact hstored
    · simp [identity, Device.allocPeer]
  · intro k q hq
    rcases (hmem k q).mp hq with hq | ⟨rfl, rfl⟩
    · exact h.foreign k q hq
    · exact Ne.symm hown
  · intro k q hq
    rcases (hmem k q).mp hq with hq | ⟨rfl, rfl⟩
    · exact lt_succ_of_lt (h.allocated k q hq)
    · exact lt_succ_self _
  · intro f pfx q howns
    obtain ⟨k, hk⟩ := h.routes f pfx q howns
    exact ⟨k, (hmem k q).mpr (Or.inl hk)⟩

/-! ## §5 Requests -/

theorem Bookkept.applySetting (h : Bookkept env d) (s : Setting) :
    Bookkept env (d.applySetting env s).1 := by
  cases s
  case privateKey sk => exact h.setPrivateKey sk
  case listenPort port =>
    exact h.unbooked ((Unbooked.net d _).trans (socketRel_unbooked.bindUpdate env _))
  case fwmark mark => exact h.unbooked (socketRel_unbooked.bindSetMark env d mark)
  case replacePeers => exact h.removeAllPeers
  case jc | jmin | jmax | padding | imitateProtocol | header | ipacket =>
    exact h.unbooked ⟨rfl, rfl, rfl, rfl, le_refl _, fun _ _ => rfl⟩

/-- The peer that is being configured is a dummy, or in the map. -/
def Current (d : Device B E) (ipc : IpcSetPeer) : Prop :=
  ∀ p, ipc.peer = some p → ipc.dummy = false → ∃ k, (k, p) ∈ d.keyMap

theorem current_dummyPeer (d : Device B E) (ipc : IpcSetPeer) :
    Current (d.dummyPeer ipc).1 (d.dummyPeer ipc).2 := by
  intro p _ hdummy
  cases hdummy

theorem Bookkept.applyPeerSetting (h : Bookkept env d) {ipc : IpcSetPeer} (hp : ipc.peer = some p)
    (hcurrent : Current d ipc) (s : PeerSetting E) : Bookkept env (d.applyPeerSetting ipc p s).1 ∧
      Current (d.applyPeerSetting ipc p s).1 (d.applyPeerSetting ipc p s).2 := by
  rcases hs : d.applyPeerSetting ipc p s with ⟨d', ipc'⟩
  cases applyPeerSetting_change hs with
  | keep => exact ⟨h, hcurrent⟩
  | modify f pkaOn hf =>
    refine ⟨h.unbooked (Unbooked.modifyPeer d p fun peer => ?_), hcurrent⟩
    rw [hf peer]
    exact ⟨rfl, rfl⟩
  | routes allowedips hdummy hroutes =>
    refine ⟨{ h with routes := fun f bits q howns => ?_ }, hcurrent⟩
    obtain rfl | ⟨pfx, rfl | rfl⟩ := hroutes
    · exact h.routes f bits q ((d.allowedips.owns_removeByPeer_iff p f bits q).mp howns).1
    · -- the new route belongs to the peer that is being configured
      have howns' := (d.allowedips.owns_insert_iff pfx p f bits q).mp howns
      split at howns'
      · rw [howns']
        exact hcurrent p hp hdummy
      · exact h.routes f bits q howns'
    · exact h.routes f bits q (RoutingTable.owns_of_owns_remove howns)
  | dummy => exact ⟨h.unbooked (Unbooked.allocPeer _ _), current_dummyPeer _ ipc⟩
  | remove => exact ⟨(h.removePeer _).unbooked (Unbooked.allocPeer _ _), current_dummyPeer _ ipc⟩

theorem Bookkept.handlePublicKeyLine (h : Bookkept env d) {ipc ipc' : IpcSetPeer} {value : Bytes}
    (hline : d.handlePublicKeyLine env ipc value = (d', ipc', none)) :
    Bookkept env d' ∧ Current d' ipc' := by
  obtain ⟨pk, -, ⟨-, rfl, rfl⟩ | ⟨-, p, hp, rfl, rfl⟩ | ⟨hown, -, p, hnew, rfl⟩⟩ :=
    handlePublicKeyLine_accepted hline
  · refine ⟨h.unbooked (Unbooked.allocPeer d Peer.zero), fun p _ hdummy => ?_⟩
    cases hdummy
  · refine ⟨h, fun q hq _ => ⟨pk, ?_⟩⟩
    cases hq
    exact mem_of_lookupPeer hp
  · obtain ⟨h', hmem⟩ := h.newPeer hown hnew
    refine ⟨h', fun q hq _ => ⟨pk, ?_⟩⟩
    cases hq
    exact hmem

/-- **A request keeps the books**, whether it is accepted or not. -/
theorem Bookkept.ipcSet (h : Bookkept env d) (uapiConf : Bytes) :
    Bookkept env (d.ipcSet env uapiConf).1 := by
  refine ipcSetLines_rule (fun _ => True)
    (fun b d ipc => Bookkept env d ∧ (b = true → ipc.peer = none) ∧ Current d ipc)
      (fun d _ => Bookkept env d)
    (fun _ _ _ _ hinv _ _ => hinv.1) ?_ ?_ ?_ ?_ _ (fun _ _ => trivial)
      (fun hfalse => by cases hfalse)
    ⟨h, fun _ => rfl, fun p hp => by cases hp⟩
  · -- device lines come before all peers
    rintro d ipc line s - - ⟨hd, hnone, -⟩
    refine ⟨hd.applySetting s, hnone, fun p hp => ?_⟩
    rw [hnone rfl] at hp
    cases hp
  · rintro b d ipc ⟨hd, hnone, hcurrent⟩
    have hpost := Unbooked.handlePostConfig d ipc
    refine ⟨hd.unbooked hpost, hnone, fun p hp hdummy => ?_⟩
    rw [hpost.keyMap]
    exact hcurrent p hp hdummy
  · rintro b d ipc value d' ipc' ⟨hd, -, -⟩ hline
    obtain ⟨hd', hcurrent'⟩ := hd.handlePublicKeyLine hline
    exact ⟨hd', (by cases ·), hcurrent'⟩
  · rintro d ipc p line s - - hp ⟨hd, -, hcurrent⟩
    obtain ⟨hd', hcurrent'⟩ := hd.applyPeerSetting hp hcurrent s
    exact ⟨hd', (by cases ·), hcurrent'⟩

theorem bookkept_newDevice (env : Env B E) (bind : B) : Bookkept env (newDevice bind) :=
  ⟨fun _ _ _ hmem => absurd hmem not_mem_nil, fun _ _ hmem => absurd hmem not_mem_nil,
    fun _ _ hmem => absurd hmem not_mem_nil, fun _ _ hmem => absurd hmem not_mem_nil,
    fun f pfx p howns => absurd howns (RoutingTable.not_owns_empty f pfx p)⟩

theorem Bookkept.afterRequests (h : Bookkept env d) (requests : List Bytes) :
    Bookkept env (afterRequests env d requests) := by
  induction requests generalizing d with
  | nil => exact h
  | cons uapiConf requests ih => exact ih (h.ipcSet uapiConf)

/-- **The books of every configuration history.**  After any requests on a new device, refused ones
included: a peer of the map does not have the key of the device, its precomputed secret is the
result of `sharedSecret` for the private key in force (zeros when that fails), it is stored under
its own key and found there, and every route belongs to a peer of the map. -/
theorem peers_bookkept (env : Env B E) (bind : B) (requests : List Bytes) :
    let d := afterRequests env (newDevice bind) requests
    (∀ k p, (k, p) ∈ d.keyMap → (d.peer p).remoteStatic ≠ d.publicKey ∧
      (d.peer p).precomputedStaticStatic = env.scalarMult d.privateKey (d.peer p).remoteStatic ∧
      (d.peer p).remoteStatic = k ∧ d.lookupPeer k = some p) ∧
    ∀ f pfx p, d.allowedips.Owns f pfx p → ∃ k, (k, p) ∈ d.keyMap := by
  intro d
  have h : Bookkept env d := (bookkept_newDevice env bind).afterRequests requests
  refine ⟨fun k p hp => ?_, h.routes⟩
  obtain ⟨hremote, hsecret⟩ := Prod.mk.inj (h.stored k p hp)
  refine ⟨hremote ▸ h.foreign k p hp, ?_, hremote, ?_⟩
  · rw [hsecret, hremote]
  · cases hlook : d.lookupPeer k with
    | none => exact absurd hp (not_mem_of_lookupPeer hlook p)
    | some q => rw [h.unique k q p (mem_of_lookupPeer hlook) hp]

end Device

end AmneziaWG.Device
