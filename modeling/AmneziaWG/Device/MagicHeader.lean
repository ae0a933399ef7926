import AmneziaWG.Lib.Render
import Mathlib.Data.Fintype.Basic

/-!
# Magic Headers

Embedding of `device/magic-header.go`, and of the overlap check that `mergeWithDevice`
makes on the four ranges of a device.  A range that has been built is not empty.

## Main results

- `MagicHeader.generates_iff`: every range but that of all values generates its own values, and its
  printed form is read back.
- `Headers.Disjoint.generate_validate`: four disjoint ranges can be generated from.
-/

namespace AmneziaWG.Device

open AmneziaWG.Lib List BitVec Nat

/-! ## §1 Ranges -/

/-- A range of header values, both ends included. -/
structure MagicHeader where
  start : BitVec 32
  last : BitVec 32
  start_le : start ≤ last
  deriving DecidableEq

inductive MagicHeaderError where
  | badFormat
  | failedToParse (part : Bytes) (err : NumError)
  | wrongRange
  deriving DecidableEq

/-- The range from `start` to `last`, both below `2 ^ 32` when `ParseUint` returns them. -/
def MagicHeader.ofRange (start last : ℕ) : Except MagicHeaderError MagicHeader :=
  if h : BitVec.ofNat 32 start ≤ BitVec.ofNat 32 last then .ok ⟨_, _, h⟩ else .error .wrongRange

def newMagicHeader (spec : Bytes) : Except MagicHeaderError MagicHeader :=
  match splitByte (asciiByte '-') spec with
  | [part] => do
    let start ← (parseUint part 32).mapError (.failedToParse part)
    MagicHeader.ofRange start start
  | [part, part'] => do
    let start ← (parseUint part 32).mapError (.failedToParse part)
    let last ← (parseUint part' 32).mapError (.failedToParse part')
    MagicHeader.ofRange start last
  | _ => .error .badFormat

def MagicHeader.genSpec (h : MagicHeader) : Bytes :=
  if h.start = h.last then decimal h.start.toNat
  else decimal h.start.toNat ++ asciiByte '-' :: decimal h.last.toNat

def MagicHeader.validate (h : MagicHeader) (val : BitVec 32) : Bool :=
  h.start ≤ val && val ≤ h.last

/-- `Generate`; `none` is the panic of `rand.Int` on an empty interval.  The size of the
range is a `uint32` and is zero for the range of all values.  `draw` stands for the bytes of
the random source. -/
def MagicHeader.generate (h : MagicHeader) (draw : ℕ) : Option (BitVec 32) :=
  let high := (h.last - h.start + 1).toNat
  if high = 0 then none else some (h.start + BitVec.ofNat 32 (draw % high))

def MagicHeader.IsFull (h : MagicHeader) : Prop :=
  h.start = 0 ∧ h.last = 0xffffffff

theorem MagicHeader.generate_eq_none_iff (h : MagicHeader) (draw : ℕ) :
    h.generate draw = none ↔ h.IsFull := by
  have hle : h.start ≤ h.last := h.start_le
  have hzero : (h.last - h.start + 1).toNat = 0 ↔ h.IsFull := by
    unfold IsFull
    constructor
    · intro hsize
      constructor <;> bv_omega
    · rintro ⟨hstart, hlast⟩
      rw [hstart, hlast]
      decide
  rw [← hzero, generate]
  simp

theorem MagicHeader.validate_start (h : MagicHeader) : h.validate h.start = true := by
  simp [validate, h.start_le]

theorem MagicHeader.size_of_not_full {h : MagicHeader} (hfull : ¬h.IsFull) :
    (h.last - h.start + 1).toNat = h.last.toNat - h.start.toNat + 1 := by
  have hle : h.start.toNat ≤ h.last.toNat := h.start_le
  have hlast : h.last.toNat < 2 ^ 32 := h.last.isLt
  have hsize : h.last.toNat - h.start.toNat + 1 < 2 ^ 32 := by
    by_contra hwrap
    refine hfull ⟨?_, ?_⟩
    · refine eq_of_toNat_eq ?_
      show h.start.toNat = 0
      omega
    · refine eq_of_toNat_eq ?_
      show h.last.toNat = 4294967295
      omega
  rw [toNat_add, toNat_sub_of_le h.start_le]
  exact mod_eq_of_lt hsize

theorem MagicHeader.generate_offset {h : MagicHeader} (hfull : ¬h.IsFull) {r : ℕ}
    (hr : r < h.last.toNat - h.start.toNat + 1) {draw : ℕ}
    (hdraw : draw % (h.last.toNat - h.start.toNat + 1) = r) :
    ∃ val, h.generate draw = some val ∧ val.toNat = h.start.toNat + r := by
  have hlast : h.last.toNat < 2 ^ 32 := h.last.isLt
  rw [generate, size_of_not_full hfull]
  refine ⟨_, if_neg (succ_ne_zero _), ?_⟩
  rw [hdraw, toNat_add, toNat_ofNat, mod_eq_of_lt (by omega : r < 2 ^ 32)]
  exact mod_eq_of_lt (by omega)

theorem MagicHeader.validate_iff (h : MagicHeader) (v : BitVec 32) :
    h.validate v = true ↔ h.start.toNat ≤ v.toNat ∧ v.toNat ≤ h.last.toNat := by
  simp only [validate, Bool.and_eq_true, decide_eq_true_eq, le_def]

theorem MagicHeader.generate_mem {h : MagicHeader} (hfull : ¬h.IsFull) (draw : ℕ) :
    ∃ val, h.generate draw = some val ∧ h.validate val = true := by
  have hle : h.start.toNat ≤ h.last.toNat := h.start_le
  have hlt := mod_lt draw (succ_pos (h.last.toNat - h.start.toNat))
  obtain ⟨val, hval, hoffset⟩ := generate_offset hfull hlt rfl
  refine ⟨val, hval, (h.validate_iff val).mpr ?_⟩
  rw [hoffset]
  omega

theorem MagicHeader.exists_generate {h : MagicHeader} (hfull : ¬h.IsFull) {v : BitVec 32}
    (hv : h.validate v = true) : ∃ draw, h.generate draw = some v := by
  obtain ⟨hlow, hhigh⟩ := (h.validate_iff v).mp hv
  have hlt : v.toNat - h.start.toNat < h.last.toNat - h.start.toNat + 1 := by omega
  obtain ⟨val, hval, hoffset⟩ := generate_offset hfull hlt (mod_eq_of_lt hlt)
  refine ⟨v.toNat - h.start.toNat, ?_⟩
  rw [hval]
  exact congrArg some (eq_of_toNat_eq (by omega))

/-- A range that leaves a value out can be drawn from. -/
theorem MagicHeader.generate_validate {h : MagicHeader} {v : BitVec 32} (hv : h.validate v = false)
    (draw : ℕ) : ∃ val, h.generate draw = some val ∧ h.validate val = true := by
  refine generate_mem ?_ draw
  rintro ⟨hstart, hlast⟩
  have hin : h.validate v = true := by
    rw [validate_iff, hstart, hlast]
    exact ⟨zero_le _, le_of_lt_succ v.isLt⟩
  rw [hv] at hin
  cases hin

theorem MagicHeader.ofRange_toNat (h : MagicHeader) :
    ofRange h.start.toNat h.last.toNat = .ok h := by
  have hle : BitVec.ofNat 32 h.start.toNat ≤ BitVec.ofNat 32 h.last.toNat := by
    rw [BitVec.ofNat_toNat, BitVec.ofNat_toNat, BitVec.setWidth_eq, BitVec.setWidth_eq]
    exact h.start_le
  rw [ofRange, dif_pos hle]
  refine congrArg Except.ok ?_
  obtain ⟨start, last, hstart⟩ := h
  simp only [BitVec.ofNat_toNat, BitVec.setWidth_eq]

theorem newMagicHeader_genSpec (h : MagicHeader) : newMagicHeader h.genSpec = .ok h := by
  have hminus : ∀ n, asciiByte '-' ∉ decimal n := fun n => not_mem_decimal (by decide)
  have hstart : parseUint (decimal h.start.toNat) 32 = .ok h.start.toNat :=
    parseUint_decimal h.start.isLt
  have hlast : parseUint (decimal h.last.toNat) 32 = .ok h.last.toNat :=
    parseUint_decimal h.last.isLt
  unfold MagicHeader.genSpec
  split
  · next heq =>
    have hrange := h.ofRange_toNat
    rw [← heq] at hrange
    rw [newMagicHeader, splitByte_of_not_mem (hminus _)]
    simp only [hstart]
    exact hrange
  · rw [newMagicHeader, splitByte_append _ (hminus _), splitByte_of_not_mem (hminus _)]
    simp only [hstart, hlast]
    exact h.ofRange_toNat

/-- **Ranges generate their own values**, all of them, unless they consist of all values. -/
theorem MagicHeader.generates_iff {spec : Bytes} {h : MagicHeader}
    (hspec : newMagicHeader spec = .ok h) :
    ((∀ draw, ∃ val, h.generate draw = some val ∧ h.validate val = true) ∧
        (∀ v, h.validate v = true → ∃ draw, h.generate draw = some v) ∧
        newMagicHeader h.genSpec = newMagicHeader spec) ↔ ¬h.IsFull := by
  constructor
  · rintro ⟨hgenerate, -, -⟩ hfull
    obtain ⟨val, hval, -⟩ := hgenerate 0
    rw [(h.generate_eq_none_iff 0).mpr hfull] at hval
    cases hval
  · intro hfull
    refine ⟨generate_mem hfull, fun v => exists_generate hfull, ?_⟩
    rw [newMagicHeader_genSpec, hspec]

/-- A range of three values. -/
theorem MagicHeader.generates_three : newMagicHeader (ascii "7-9") = .ok ⟨7, 9, by decide⟩ ∧
      ∀ draw, ∃ val, MagicHeader.generate ⟨7, 9, by decide⟩ draw = some val ∧
        MagicHeader.validate ⟨7, 9, by decide⟩ val = true := by
  have hspec : newMagicHeader (ascii "7-9") = .ok ⟨7, 9, by decide⟩ := by decide
  refine ⟨hspec, ((MagicHeader.generates_iff hspec).mpr ?_).1⟩
  rintro ⟨hstart, -⟩
  exact absurd hstart (by decide)

/-- The range of all values is accepted, and no draw from it succeeds. -/
theorem MagicHeader.full_range_fails :
    newMagicHeader (ascii "0-4294967295") = .ok ⟨0, 0xffffffff, by decide⟩ ∧
      ∀ draw, MagicHeader.generate ⟨0, 0xffffffff, by decide⟩ draw = none := by
  constructor
  · decide
  · intro draw
    rfl

/-- The test of `mergeWithDevice` on two ranges. -/
def MagicHeader.overlaps (left right : MagicHeader) : Bool :=
  left.start ≤ right.last && right.start ≤ left.last

/-- The test of `mergeWithDevice` finds a value in common. -/
theorem MagicHeader.overlaps_iff (left right : MagicHeader) :
    left.overlaps right = true ↔ ∃ v, left.validate v = true ∧ right.validate v = true := by
  simp only [overlaps, validate, Bool.and_eq_true, decide_eq_true_eq]
  constructor
  · rintro ⟨h₁, h₂⟩
    -- the larger of the two starts is in both ranges
    by_cases hle : left.start ≤ right.start
    · exact ⟨right.start, ⟨hle, h₂⟩, BitVec.le_refl _, right.start_le⟩
    · have hle' : right.start ≤ left.start := BitVec.le_of_lt (BitVec.not_le.mp hle)
      exact ⟨left.start, ⟨BitVec.le_refl _, left.start_le⟩, hle', h₁⟩
  · rintro ⟨v, ⟨h₁, h₂⟩, h₃, h₄⟩
    exact ⟨BitVec.le_trans h₁ h₄, BitVec.le_trans h₃ h₂⟩

/-! ## §2 The four ranges of a device -/

/-- Which of the four message types a range belongs to. -/
inductive HeaderSlot where
  | init
  | response
  | cookie
  | transport
  deriving DecidableEq, Repr

instance : Fintype HeaderSlot where
  elems := {.init, .response, .cookie, .transport}
  complete slot := by cases slot <;> decide

/-- `device.headers`. -/
structure Headers where
  init : MagicHeader
  response : MagicHeader
  cookie : MagicHeader
  transport : MagicHeader
  deriving DecidableEq

def Headers.get (hs : Headers) : HeaderSlot → MagicHeader
  | .init => hs.init
  | .response => hs.response
  | .cookie => hs.cookie
  | .transport => hs.transport

def Headers.set (hs : Headers) (slot : HeaderSlot) (h : MagicHeader) : Headers :=
  match slot with
  | .init => { hs with init := h }
  | .response => { hs with response := h }
  | .cookie => { hs with cookie := h }
  | .transport => { hs with transport := h }

/-- The slice that `mergeWithDevice` runs over. -/
def Headers.toList (hs : Headers) : List MagicHeader :=
  [hs.init, hs.response, hs.cookie, hs.transport]

/-- The two nested loops of `mergeWithDevice`: is there `i < j` with overlapping ranges? -/
def anyOverlap : List MagicHeader → Bool
  | [] => false
  | left :: rest => rest.any left.overlaps || anyOverlap rest

def Headers.Disjoint (hs : Headers) : Prop :=
  ∀ a b : HeaderSlot, a ≠ b → ∀ v, ¬((hs.get a).validate v = true ∧ (hs.get b).validate v = true)

/-- The check of `mergeWithDevice` passes exactly on pairwise disjoint ranges. -/
theorem Headers.anyOverlap_eq_false_iff (hs : Headers) :
    anyOverlap hs.toList = false ↔ hs.Disjoint := by
  have hpair : ∀ l r : MagicHeader, l.overlaps r = false ↔
      ∀ v, ¬(l.validate v = true ∧ r.validate v = true) := by
    intro l r
    rw [← not_exists, ← MagicHeader.overlaps_iff, Bool.not_eq_true]
  simp only [toList, anyOverlap, any_cons, any_nil, Bool.or_false, Bool.or_eq_false_iff, hpair]
  constructor
  · rintro ⟨⟨hir, hic, hit⟩, ⟨hrc, hrt⟩, hct⟩ a b hab v ⟨ha, hb⟩
    -- the loops look at each pair once; the other order is the same pair
    match a, b with
    | .init, .response => exact hir v ⟨ha, hb⟩
    | .init, .cookie => exact hic v ⟨ha, hb⟩
    | .init, .transport => exact hit v ⟨ha, hb⟩
    | .response, .cookie => exact hrc v ⟨ha, hb⟩
    | .response, .transport => exact hrt v ⟨ha, hb⟩
    | .cookie, .transport => exact hct v ⟨ha, hb⟩
    | .response, .init => exact hir v ⟨hb, ha⟩
    | .cookie, .init => exact hic v ⟨hb, ha⟩
    | .transport, .init => exact hit v ⟨hb, ha⟩
    | .cookie, .response => exact hrc v ⟨hb, ha⟩
    | .transport, .response => exact hrt v ⟨hb, ha⟩
    | .transport, .cookie => exact hct v ⟨hb, ha⟩
    | .init, .init | .response, .response | .cookie, .cookie | .transport, .transport =>
      exact hab rfl
  · intro h
    exact ⟨⟨h .init .response (by decide), h .init .cookie (by decide),
      h .init .transport (by decide)⟩, ⟨h .response .cookie (by decide),
      h .response .transport (by decide)⟩, h .cookie .transport (by decide)⟩

/-- None of four disjoint ranges is the range of all values. -/
theorem Headers.Disjoint.generate_validate {hs : Headers} (h : hs.Disjoint) (slot : HeaderSlot)
    (draw : ℕ) :
    ∃ val, (hs.get slot).generate draw = some val ∧ (hs.get slot).validate val = true := by
  obtain ⟨slot', hne⟩ : ∃ slot', slot' ≠ slot := by cases slot <;> decide
  -- the first value of another range is not in this one
  apply MagicHeader.generate_validate (v := (hs.get slot').start)
  rw [← Bool.not_eq_true]
  intro hin
  exact h slot' slot hne _ ⟨MagicHeader.validate_start _, hin⟩

/-- The four message types of the protocol, as `NewDevice` sets them. -/
def Headers.default : Headers :=
  { init := ⟨1, 1, by decide⟩
    response := ⟨2, 2, by decide⟩
    cookie := ⟨3, 3, by decide⟩
    transport := ⟨4, 4, by decide⟩ }

theorem Headers.default_disjoint : Headers.default.Disjoint := by
  rw [← anyOverlap_eq_false_iff]
  decide

end AmneziaWG.Device
