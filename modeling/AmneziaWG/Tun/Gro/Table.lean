import AmneziaWG.Tun.Gro.Model

/-!
# The Tables of GRO

What the operations on a table do to the set of its items, for tables in which every item is under
its own key and no two items have the same index.  Each operation changes one flow, so that all of
them are instances of one rule (`Indexed.change`).
-/

namespace AmneziaWG.Tun

open AmneziaWG.Lib List Nat Function

/-! ## §1 Lists with distinct indices -/

section Lists

variable {I : Type} {idx : I → ℕ}
variable {l : List I} {j : ℕ} {item : I}

theorem exists_split_of_getElem? (h : l[j]? = some item) :
    ∃ before behind, l = before ++ item :: behind ∧ before.length = j := by
  obtain ⟨hj, rfl⟩ := List.getElem?_eq_some_iff.mp h
  refine ⟨l.take j, l.drop (j + 1), ?_, ?_⟩
  · rw [getElem_cons_drop, take_append_drop]
  · rw [length_take, min_eq_left (le_of_lt hj)]

theorem idx_ne_of_nodup {before behind : List I} (h : ((before ++ item :: behind).map idx).Nodup) :
    ∀ x ∈ before ++ behind, idx x ≠ idx item := by
  intro x hx heq
  have hperm : (before ++ item :: behind).Perm (item :: (before ++ behind)) := perm_middle
  have hnodup := (hperm.map idx).nodup_iff.mp h
  rw [map_cons, nodup_cons] at hnodup
  exact hnodup.1 (heq ▸ mem_map_of_mem hx)

theorem mem_eraseIdx_iff_of_nodup (h : (l.map idx).Nodup)
    (hj : l[j]? = some item) {x : I} : x ∈ l.eraseIdx j ↔ x ∈ l ∧ idx x ≠ idx item := by
  obtain ⟨before, behind, rfl, rfl⟩ := exists_split_of_getElem? hj
  have hne := idx_ne_of_nodup h
  have herase : (before ++ item :: behind).eraseIdx before.length = before ++ behind := by
    rw [List.eraseIdx_append_of_length_le (Nat.le_refl _), Nat.sub_self, List.eraseIdx_cons_zero]
  rw [herase]
  constructor
  · intro hx
    refine ⟨?_, hne x hx⟩
    exact perm_middle.mem_iff.mpr (mem_cons_of_mem _ hx)
  · rintro ⟨hx, hidx⟩
    rcases mem_cons.mp (perm_middle.mem_iff.mp hx) with rfl | hx
    · exact absurd rfl hidx
    · exact hx

theorem mem_set_iff_of_nodup (h : (l.map idx).Nodup) {item' : I} (hj : l[j]? = some item) {x : I} :
    x ∈ l.set j item' ↔ x = item' ∨ (x ∈ l ∧ idx x ≠ idx item) := by
  obtain ⟨before, behind, rfl, rfl⟩ := exists_split_of_getElem? hj
  have hne := idx_ne_of_nodup h
  have hset : (before ++ item :: behind).set before.length item' = before ++ item' :: behind := by
    rw [List.set_append_right _ _ (Nat.le_refl _), Nat.sub_self, List.set_cons_zero]
  rw [hset, perm_middle.mem_iff, mem_cons]
  refine or_congr_right ⟨fun hx => ⟨?_, hne x hx⟩, ?_⟩
  · exact perm_middle.mem_iff.mpr (mem_cons_of_mem _ hx)
  · rintro ⟨hx, hidx⟩
    rcases mem_cons.mp (perm_middle.mem_iff.mp hx) with rfl | hx
    · exact absurd rfl hidx
    · exact hx

end Lists

/-! ## §2 One flow and the others -/

namespace GROTable

variable {K I : Type} [DecidableEq K]
variable {item : I}

def flow (t : GROTable K I) (key : K) : List I := (t.itemsByFlow.lookup key).getD []

theorem items_perm (t : GROTable K I) (key : K) :
    t.items.Perm (t.flow key ++ (t.itemsByFlow.entries.kerase key).flatMap Sigma.snd) := by
  by_cases hkey : key ∈ t.itemsByFlow.entries.keys
  · obtain ⟨l, before, behind, -, hentries, hkerase⟩ := exists_of_kerase hkey
    have hlookup : t.itemsByFlow.lookup key = some l := by
      refine AList.mem_lookup_iff.mpr ?_
      rw [hentries]
      exact mem_append_right _ (mem_cons_self ..)
    have hflow : t.flow key = l := by rw [flow, hlookup]; rfl
    rw [items, hkerase, hentries, hflow, flatMap_append, flatMap_append, flatMap_cons]
    exact perm_append_comm_assoc _ _ _
  · have hflow : t.flow key = [] := by
      rw [flow, AList.lookup_eq_none.mpr hkey]
      rfl
    rw [kerase_of_notMem_keys hkey, hflow, nil_append]
    exact List.Perm.refl _

theorem exists_rest {t t' : GROTable K I} {key : K}
    (h : ∀ k, k ≠ key → t'.itemsByFlow.lookup k = t.itemsByFlow.lookup k) :
    ∃ rest, t.items.Perm (t.flow key ++ rest) ∧ t'.items.Perm (t'.flow key ++ rest) := by
  refine ⟨_, t.items_perm key, (t'.items_perm key).trans (List.Perm.append_left _ ?_)⟩
  have hnodup := t.itemsByFlow.nodupKeys
  have hnodup' := t'.itemsByFlow.nodupKeys
  refine List.Perm.flatMap_right _ (lookup_ext (hnodup'.kerase key) (hnodup.kerase key) ?_)
  intro k l
  by_cases hk : k = key
  · subst hk
    rw [dlookup_kerase _ hnodup', dlookup_kerase _ hnodup]
  · rw [dlookup_kerase_ne hk, dlookup_kerase_ne hk]
    have hlookup : dlookup k t'.itemsByFlow.entries = dlookup k t.itemsByFlow.entries :=
      h k hk
    rw [hlookup]

/-- Every item is under its own key, and no two items have the same index. -/
structure Indexed (keyOf : I → K) (idx : I → ℕ) (t : GROTable K I) : Prop where
  keyed : ∀ key, ∀ item ∈ t.flow key, keyOf item = key
  nodup : (t.items.map idx).Nodup

variable {keyOf : I → K} {idx : I → ℕ} {t t' : GROTable K I} {key : K}

theorem Indexed.new : (GROTable.new : GROTable K I).Indexed keyOf idx :=
  ⟨fun _ _ h => absurd h not_mem_nil, nodup_nil⟩

theorem Indexed.nodup_flow (h : t.Indexed keyOf idx) (key : K) : ((t.flow key).map idx).Nodup := by
  have hperm := (t.items_perm key).map idx
  rw [map_append] at hperm
  exact (nodup_append.mp (hperm.nodup_iff.mp h.nodup)).1

theorem Indexed.eq_of_idx (h : t.Indexed keyOf idx) {x y : I} (hx : x ∈ t.items) (hy : y ∈ t.items)
    (heq : idx x = idx y) : x = y :=
  inj_on_of_nodup_map h.nodup hx hy heq

theorem mem_items_of_flow (h : item ∈ t.flow key) : item ∈ t.items :=
  (t.items_perm key).mem_iff.mpr (mem_append_left _ h)

theorem Indexed.mem_items_iff (h : t.Indexed keyOf idx) :
    item ∈ t.items ↔ item ∈ t.flow (keyOf item) := by
  refine ⟨fun hitem => ?_, mem_items_of_flow⟩
  obtain ⟨⟨key, l⟩, hentry, hin⟩ := mem_flatMap.mp hitem
  have hflow : t.flow key = l := by
    rw [flow, AList.mem_lookup_iff.mpr hentry]
    rfl
  have hmem : item ∈ t.flow key := hflow ▸ hin
  rw [h.keyed key item hmem]
  exact hmem

/-- A table that differs in one flow, where the indices in that flow are old ones of the flow or new
ones. -/
theorem Indexed.change (h : t.Indexed keyOf idx)
    (hother : ∀ k, k ≠ key → t'.itemsByFlow.lookup k = t.itemsByFlow.lookup k)
    (hkey : ∀ item ∈ t'.flow key, keyOf item = key) (hnodup : ((t'.flow key).map idx).Nodup)
    (hidx : ∀ item ∈ t'.flow key, idx item ∈ (t.flow key).map idx ∨ idx item ∉ t.items.map idx) :
    t'.Indexed keyOf idx ∧
      ∀ x, x ∈ t'.items ↔ x ∈ t'.flow key ∨ (x ∈ t.items ∧ x ∉ t.flow key) := by
  -- both tables hold the items of the flow and the same rest
  obtain ⟨rest, hperm, hperm'⟩ := exists_rest hother
  have hall := h.nodup
  rw [(hperm.map idx).nodup_iff, map_append, nodup_append] at hall
  obtain ⟨-, hrest, hdisjoint⟩ := hall
  refine ⟨⟨?_, ?_⟩, ?_⟩
  · intro k item hitem
    by_cases hk : k = key
    · subst hk
      exact hkey item hitem
    · rw [flow, hother k hk] at hitem
      exact h.keyed k item hitem
  · rw [(hperm'.map idx).nodup_iff, map_append, nodup_append]
    refine ⟨hnodup, hrest, ?_⟩
    intro i hi j hj heq
    subst heq
    obtain ⟨item, hitem, rfl⟩ := mem_map.mp hi
    rcases hidx item hitem with hold | hnew
    · exact hdisjoint _ hold _ hj rfl
    · refine hnew ((hperm.map idx).mem_iff.mpr ?_)
      rw [map_append]
      exact mem_append_right _ hj
  · intro x
    rw [hperm'.mem_iff, mem_append, hperm.mem_iff, mem_append]
    refine or_congr_right ⟨fun hx => ⟨Or.inr hx, fun hx' => ?_⟩, ?_⟩
    · exact hdisjoint _ (mem_map_of_mem hx') _ (mem_map_of_mem hx) rfl
    · rintro ⟨hx | hx, hnot⟩
      · exact absurd hx hnot
      · exact hx

/-! ## §3 The operations -/

theorem lookup_updateAt_ne (t : GROTable K I) {k : K} (hk : k ≠ key) (j : ℕ) (item : I) :
    (t.updateAt key j item).itemsByFlow.lookup k = t.itemsByFlow.lookup k :=
  AList.lookup_insert_ne hk

theorem flow_updateAt (t : GROTable K I) (key : K) (j : ℕ) (item : I) :
    (t.updateAt key j item).flow key = (t.flow key).set j item := by
  rw [flow, updateAt, AList.lookup_insert]
  rfl

theorem lookup_deleteAt_ne (t : GROTable K I) {k : K} (hk : k ≠ key) (j : ℕ) :
    (t.deleteAt key j).itemsByFlow.lookup k = t.itemsByFlow.lookup k :=
  AList.lookup_insert_ne hk

theorem flow_deleteAt (t : GROTable K I) (key : K) (j : ℕ) :
    (t.deleteAt key j).flow key = (t.flow key).eraseIdx j := by
  rw [flow, deleteAt, AList.lookup_insert]
  rfl

theorem push_spec (h : t.push key item = some t') :
    (∀ k, k ≠ key → t'.itemsByFlow.lookup k = t.itemsByFlow.lookup k) ∧
      t'.flow key = t.flow key ++ [item] := by
  unfold push at h
  cases hlookup : t.itemsByFlow.lookup key with
  | some l =>
    rw [hlookup] at h
    cases h
    exact ⟨fun k hk => AList.lookup_insert_ne hk, by simp [flow, AList.lookup_insert, hlookup]⟩
  | none =>
    rw [hlookup] at h
    cases hpool : t.itemsPool with
    | zero =>
      rw [hpool] at h
      cases h
    | succ n =>
      rw [hpool] at h
      cases h
      exact ⟨fun k hk => AList.lookup_insert_ne hk, by simp [flow, AList.lookup_insert, hlookup]⟩

theorem Indexed.updateAt (h : t.Indexed keyOf idx) {j : ℕ} {item' : I}
    (hj : (t.flow key)[j]? = some item) (hkey : keyOf item' = key) (hidx : idx item' = idx item) :
    (t.updateAt key j item').Indexed keyOf idx ∧
      ∀ x, x ∈ (t.updateAt key j item').items ↔ x = item' ∨ (x ∈ t.items ∧ idx x ≠ idx item) := by
  have hnodup := h.nodup_flow key
  have hmem : item ∈ t.flow key := mem_of_getElem? hj
  have hset : ∀ x, x ∈ (t.updateAt key j item').flow key ↔
      x = item' ∨ (x ∈ t.flow key ∧ idx x ≠ idx item) := by
    intro x
    rw [flow_updateAt]
    exact mem_set_iff_of_nodup hnodup hj
  -- the new item keeps the index of the old one
  have hmap : ((t.updateAt key j item').flow key).map idx = (t.flow key).map idx := by
    obtain ⟨hlt, heq⟩ := List.getElem?_eq_some_iff.mp hj
    rw [flow_updateAt, map_set, hidx, ← heq, ← getElem_map idx (h := by simpa using hlt),
      set_getElem_self]
  have hkeyed : ∀ x ∈ (t.updateAt key j item').flow key, keyOf x = key := by
    intro x hx
    rcases (hset x).mp hx with rfl | ⟨hx, -⟩
    · exact hkey
    · exact h.keyed key x hx
  obtain ⟨hindexed, hiff⟩ := h.change (fun k hk => t.lookup_updateAt_ne hk j item') hkeyed
    (hmap ▸ hnodup) (fun x hx => Or.inl (hmap ▸ mem_map_of_mem hx))
  refine ⟨hindexed, fun x => ?_⟩
  rw [hiff x, hset x]
  constructor
  · rintro ((rfl | ⟨hx, hne⟩) | ⟨hx, hnot⟩)
    · exact Or.inl rfl
    · exact Or.inr ⟨mem_items_of_flow hx, hne⟩
    · refine Or.inr ⟨hx, fun heq => hnot ?_⟩
      rw [h.eq_of_idx hx (mem_items_of_flow hmem) heq]
      exact hmem
  · rintro (rfl | ⟨hx, hne⟩)
    · exact Or.inl (Or.inl rfl)
    · by_cases hflow : x ∈ t.flow key
      · exact Or.inl (Or.inr ⟨hflow, hne⟩)
      · exact Or.inr ⟨hx, hflow⟩

theorem Indexed.deleteAt (h : t.Indexed keyOf idx) {j : ℕ} (hj : (t.flow key)[j]? = some item) :
    (t.deleteAt key j).Indexed keyOf idx ∧
      ∀ x, x ∈ (t.deleteAt key j).items ↔ x ∈ t.items ∧ idx x ≠ idx item := by
  have hnodup := h.nodup_flow key
  have hmem : item ∈ t.flow key := mem_of_getElem? hj
  have herase : ∀ x, x ∈ (t.deleteAt key j).flow key ↔ x ∈ t.flow key ∧ idx x ≠ idx item := by
    intro x
    rw [flow_deleteAt]
    exact mem_eraseIdx_iff_of_nodup hnodup hj
  have hsub : ((t.deleteAt key j).flow key).map idx |>.Sublist ((t.flow key).map idx) := by
    rw [flow_deleteAt]
    exact (eraseIdx_sublist _ _).map idx
  obtain ⟨hindexed, hiff⟩ := h.change (fun k hk => t.lookup_deleteAt_ne hk j)
    (fun x hx => h.keyed key x ((herase x).mp hx).1) (hnodup.sublist hsub)
    (fun x hx => Or.inl (mem_map_of_mem ((herase x).mp hx).1))
  refine ⟨hindexed, fun x => ?_⟩
  rw [hiff x, herase x]
  constructor
  · rintro (⟨hx, hne⟩ | ⟨hx, hnot⟩)
    · exact ⟨mem_items_of_flow hx, hne⟩
    · refine ⟨hx, fun heq => hnot ?_⟩
      rw [h.eq_of_idx hx (mem_items_of_flow hmem) heq]
      exact hmem
  · rintro ⟨hx, hne⟩
    by_cases hflow : x ∈ t.flow key
    · exact Or.inl ⟨hflow, hne⟩
    · exact Or.inr ⟨hx, hflow⟩

theorem Indexed.push (h : t.Indexed keyOf idx) (hpush : t.push key item = some t')
    (hkey : keyOf item = key) (hidx : idx item ∉ t.items.map idx) :
    t'.Indexed keyOf idx ∧ ∀ x, x ∈ t'.items ↔ x = item ∨ x ∈ t.items := by
  obtain ⟨hother, hflow⟩ := push_spec hpush
  have hnew : idx item ∉ (t.flow key).map idx := fun hin => by
    obtain ⟨x, hx, heq⟩ := mem_map.mp hin
    exact hidx (heq ▸ mem_map_of_mem (mem_items_of_flow hx))
  have hmem : ∀ x, x ∈ t'.flow key ↔ x ∈ t.flow key ∨ x = item := by
    intro x
    rw [hflow, mem_append, mem_singleton]
  have hkeyed : ∀ x ∈ t'.flow key, keyOf x = key := by
    intro x hx
    rcases (hmem x).mp hx with hx | rfl
    · exact h.keyed key x hx
    · exact hkey
  have hnodup : ((t'.flow key).map idx).Nodup := by
    rw [hflow, map_append, nodup_append]
    refine ⟨h.nodup_flow key, nodup_singleton _, ?_⟩
    intro i hi j hj heq
    rw [map_singleton, mem_singleton] at hj
    exact hnew (hj ▸ heq ▸ hi)
  -- an index of the flow is an old one of it, or that of the new item
  have hindices : ∀ x ∈ t'.flow key, idx x ∈ (t.flow key).map idx ∨ idx x ∉ t.items.map idx := by
    intro x hx
    rcases (hmem x).mp hx with hx | rfl
    · exact Or.inl (mem_map_of_mem hx)
    · exact Or.inr hidx
  obtain ⟨hindexed, hiff⟩ := h.change hother hkeyed hnodup hindices
  refine ⟨hindexed, fun x => ?_⟩
  rw [hiff x, hmem x]
  constructor
  · rintro ((hx | rfl) | ⟨hx, -⟩)
    · exact Or.inr (mem_items_of_flow hx)
    · exact Or.inl rfl
    · exact Or.inr hx
  · rintro (rfl | hx)
    · exact Or.inl (Or.inr rfl)
    · by_cases hin : x ∈ t.flow key
      · exact Or.inl (Or.inl hin)
      · exact Or.inr ⟨hx, hin⟩

end GROTable

/-! ## §4 Accounting -/

/-- Visiting the items updates the buffer of each item and no other. -/
theorem applyAccounting_spec {K I : Type} [DecidableEq K] {keyOf : I → K} {idx : I → ℕ}
    {table : GROTable K I} (h : table.Indexed keyOf idx) (order : MapOrder)
    (account : I → Buffer → Buffer) (bufs : ℕ → Buffer) : (∀ item ∈ table.items,
        applyAccounting order idx account table bufs (idx item) = account item (bufs (idx item))) ∧
      ∀ w, w ∉ table.items.map idx → applyAccounting order idx account table bufs w = bufs w := by
  have hperm : ((order.visit table.itemsByFlow.entries).flatMap Sigma.snd).Perm table.items :=
    (order.perm _).flatMap_right _
  have hnodup := (hperm.map idx).nodup_iff.mpr h.nodup
  have hmem : ∀ item, item ∈ table.items ↔
      item ∈ (order.visit table.itemsByFlow.entries).flatMap Sigma.snd :=
        fun _ => hperm.mem_iff.symm
  have hmap : ∀ w, w ∈ table.items.map idx ↔
      w ∈ ((order.visit table.itemsByFlow.entries).flatMap Sigma.snd).map idx :=
    fun _ => (hperm.map idx).mem_iff.symm
  unfold applyAccounting
  simp only [hmem, hmap]
  -- in any order, each buffer is written once since the indices are distinct
  generalize (order.visit table.itemsByFlow.entries).flatMap Sigma.snd = items at hnodup
  clear hperm hmem hmap h
  induction items generalizing bufs with
  | nil => exact ⟨fun item hitem => absurd hitem not_mem_nil, fun _ _ => rfl⟩
  | cons first items ih =>
    rw [map_cons, nodup_cons] at hnodup
    obtain ⟨hin, hout⟩ := ih (update bufs (idx first) (account first (bufs (idx first)))) hnodup.2
    rw [foldl_cons]
    constructor
    · intro item hitem
      rcases mem_cons.mp hitem with rfl | hitem
      · rw [hout _ hnodup.1, update_self]
      · have hne : idx item ≠ idx first := fun heq =>
          hnodup.1 (heq ▸ mem_map_of_mem hitem)
        rw [hin item hitem, update_of_ne hne]
    · intro w hw
      rw [map_cons, mem_cons, not_or] at hw
      rw [hout w hw.2, update_of_ne hw.1]

end AmneziaWG.Tun
