import AmneziaWG.Lib.Text

/-!
# Printed Text Is Read Back

What the text functions print, the text functions read: decimal numbers, hexadecimal keys, texts
joined with a separator, and lines.

## Main results

- `parseUint_decimal`, `atoi_itoa`, `decodeHex_encodeHex`: printed values are parsed to themselves.
- `cutByte_append`, `splitByte_append`: a text is cut at the separator that it was joined with.
- `scanLines_unlines`, `scanLines_joinLines`: a scanner delivers the lines that a text was made of.
-/

namespace AmneziaWG.Lib

open List Nat

/-! ## §1 Decimal numbers -/

/-- `strconv.Itoa`. -/
def itoa (n : ℤ) : Bytes :=
  if n < 0 then asciiByte '-' :: decimal n.natAbs else decimal n.natAbs

theorem decimal_ne_nil (n : ℕ) : decimal n ≠ [] := by
  rw [decimal, Ne, map_eq_nil_iff]
  exact toDigits_ne_nil

theorem decimal_eq (n : ℕ) :
    decimal n = (if n < 10 then [] else decimal (n / 10)) ++ [asciiByte (n % 10).digitChar] := by
  rw [decimal, toDigits_eq_if (by decide)]
  split
  · next hlt => rw [mod_eq_of_lt hlt]; rfl
  · rw [map_append]; rfl

theorem digitValue_digitChar : ∀ d < 10, digitValue (asciiByte d.digitChar) = some d := by
  decide

variable {n : ℕ} {b sep : Byte} {s line : Bytes} {lines : List Bytes}

theorem digitValue_of_mem_decimal (h : b ∈ decimal n) : ∃ d < 10, b = asciiByte d.digitChar := by
  induction n using Nat.strong_induction_on with
  | _ n ih =>
    rw [decimal_eq, mem_append, mem_singleton] at h
    rcases h with hfront | rfl
    · split at hfront
      · cases hfront
      · next hge => exact ih (n / 10) (by omega) hfront
    · exact ⟨n % 10, mod_lt n (by decide), rfl⟩

theorem not_mem_decimal (h : digitValue b = none) : b ∉ decimal n := by
  intro hmem
  obtain ⟨d, hd, rfl⟩ := digitValue_of_mem_decimal hmem
  rw [digitValue_digitChar d hd] at h
  cases h

theorem digitValue_of_parseUint {bitSize : ℕ} (h : parseUint s bitSize = .ok n)
    (hb : b ∈ s) : (digitValue b).isSome := by
  have hfrom : ∀ {s : Bytes} {maxVal m n : ℕ}, parseUintFrom maxVal m s = .ok n → b ∈ s →
      (digitValue b).isSome := by
    intro s
    induction s with
    | nil => exact fun _ hb => absurd hb not_mem_nil
    | cons c s ih =>
      intro maxVal m n h hb
      rw [parseUintFrom] at h
      cases hc : digitValue c with
      | none => rw [hc] at h; cases h
      | some v =>
        rw [hc] at h
        dsimp only at h
        split_ifs at h
        rcases mem_cons.mp hb with rfl | hb
        · rw [hc]
          rfl
        · exact ih h hb
  unfold parseUint at h
  split_ifs at h
  exact hfrom h hb

theorem parseUintFrom_append (maxVal n : ℕ) (s t : Bytes) :
    parseUintFrom maxVal n (s ++ t) = (parseUintFrom maxVal n s).bind fun m =>
      parseUintFrom maxVal m t := by
  induction s generalizing n with
  | nil => rfl
  | cons b bs ih =>
    rw [cons_append, parseUintFrom, parseUintFrom]
    cases digitValue b with
    | none => rfl
    | some d =>
      dsimp only
      split
      · rfl
      · exact ih _

theorem parseUintFrom_decimal {maxVal : ℕ} (h : n ≤ maxVal) :
    parseUintFrom maxVal 0 (decimal n) = .ok n := by
  induction n using Nat.strong_induction_on with
  | _ n ih =>
    rw [decimal_eq, parseUintFrom_append]
    have hfront : parseUintFrom maxVal 0 (if n < 10 then [] else decimal (n / 10)) =
        .ok (n / 10) := by
      split
      · next hlt => rw [parseUintFrom, div_eq_of_lt hlt]
      · next hge => exact ih (n / 10) (by omega) (by omega)
    have hlast : n / 10 * 10 + n % 10 = n := div_add_mod' n 10
    rw [hfront]
    show parseUintFrom maxVal (n / 10) [asciiByte (n % 10).digitChar] = .ok n
    rw [parseUintFrom, digitValue_digitChar _ (mod_lt n (by decide))]
    dsimp only
    rw [hlast, if_neg (not_lt.mpr h), parseUintFrom]

/-- A printed number is parsed to itself. -/
theorem parseUint_decimal {bitSize : ℕ} (h : n < 2 ^ bitSize) :
    parseUint (decimal n) bitSize = .ok n := by
  rw [parseUint, if_neg (decimal_ne_nil n)]
  exact parseUintFrom_decimal (le_sub_one_of_lt h)

theorem atoi_decimal (h : n < 2 ^ 63) : atoi (decimal n) = .ok (n : ℤ) := by
  have hparse : parseUint (decimal n) 64 = .ok n := parseUint_decimal (by omega)
  cases hdecimal : decimal n with
  | nil => exact absurd hdecimal (decimal_ne_nil n)
  | cons b bs =>
    have hmem : b ∈ decimal n := by rw [hdecimal]; exact mem_cons_self
    have hminus : b ≠ asciiByte '-' := by
      rintro rfl
      exact not_mem_decimal (by decide) hmem
    have hplus : b ≠ asciiByte '+' := by
      rintro rfl
      exact not_mem_decimal (by decide) hmem
    rw [hdecimal] at hparse
    simp only [atoi, hminus, hplus, or_self, if_false, hparse, Except.bind]
    exact if_neg (by omega)

theorem atoi_itoa {n : ℤ} (hlow : -2 ^ 63 ≤ n) (hhigh : n < 2 ^ 63) : atoi (itoa n) = .ok n := by
  unfold itoa
  split
  · next hneg =>
    have hparse : parseUint (decimal n.natAbs) 64 = .ok n.natAbs := parseUint_decimal (by omega)
    simp only [atoi, true_or, if_true, hparse, Except.bind]
    rw [if_neg (by omega)]
    exact congrArg Except.ok (by omega)
  · next hpos =>
    rw [atoi_decimal (by omega)]
    exact congrArg Except.ok (by omega)

/-! ## §2 Hexadecimal texts -/

/-- `hex.EncodeToString`: two digits in lower case for each byte. -/
def encodeHex (bs : Bytes) : Bytes :=
  bs.flatMap fun (b : Byte) => [hexDigit (b >>> 4).toNat, hexDigit (b &&& 0xf).toNat]

theorem halves (b : Byte) : (b >>> 4).toNat < 16 ∧ (b &&& 0xf).toNat < 16 ∧
      BitVec.ofNat 8 (16 * (b >>> 4).toNat + (b &&& 0xf).toNat) = b := by
  revert b
  decide +kernel

theorem hexValue_hexDigit : ∀ d < 16, hexValue (hexDigit d) = some d := by
  decide

theorem decodeHex_encodeHex (bs : Bytes) : decodeHex (encodeHex bs) = .ok bs := by
  induction bs with
  | nil => rfl
  | cons b bs ih =>
    obtain ⟨hhigh, hlow, hbyte⟩ := halves b
    rw [encodeHex, flatMap_cons, cons_append, cons_append, nil_append, decodeHex]
    rw [hexValue_hexDigit _ hhigh, hexValue_hexDigit _ hlow]
    change (decodeHex (encodeHex bs)).map _ = _
    rw [ih, Except.map, hbyte]

theorem length_encodeHex (bs : Bytes) : (encodeHex bs).length = 2 * bs.length := by
  induction bs with
  | nil => rfl
  | cons b bs ih =>
    rw [encodeHex, flatMap_cons, length_append]
    change 2 + (encodeHex bs).length = _
    rw [ih, length_cons]
    omega

theorem hexValue_of_mem_encodeHex {bs : Bytes} {c : Byte} (h : c ∈ encodeHex bs) :
    (hexValue c).isSome := by
  rw [encodeHex, mem_flatMap] at h
  obtain ⟨b, -, hc⟩ := h
  obtain ⟨hhigh, hlow, -⟩ := halves b
  rw [mem_cons, mem_singleton] at hc
  rcases hc with rfl | rfl
  · rw [hexValue_hexDigit _ hhigh]; rfl
  · rw [hexValue_hexDigit _ hlow]; rfl

/-! ## §3 Separators -/

theorem cutByte_append {key : Bytes} (value : Bytes) (h : sep ∉ key) :
    cutByte sep (key ++ sep :: value) = some (key, value) := by
  induction key with
  | nil => simp [cutByte]
  | cons b bs ih =>
    rw [mem_cons, not_or] at h
    rw [cons_append, cutByte, if_neg (Ne.symm h.1), ih h.2]
    rfl

theorem eq_of_cutByte {before after : Bytes} (h : cutByte sep s = some (before, after)) :
    s = before ++ sep :: after ∧ sep ∉ before := by
  induction s generalizing before with
  | nil => cases h
  | cons b bs ih =>
    rw [cutByte] at h
    split at h
    · next hsep =>
      cases h
      exact ⟨by rw [hsep]; rfl, not_mem_nil⟩
    · next hne =>
      cases hcut : cutByte sep bs with
      | none => rw [hcut] at h; cases h
      | some cut =>
        rw [hcut] at h
        cases h
        obtain ⟨hbs, hnot⟩ := ih hcut
        refine ⟨by rw [hbs]; rfl, ?_⟩
        rw [mem_cons, not_or]
        exact ⟨Ne.symm hne, hnot⟩

theorem not_mem_of_cutByte (h : cutByte sep s = none) : sep ∉ s := by
  induction s with
  | nil => exact not_mem_nil
  | cons b bs ih =>
    rw [cutByte] at h
    split_ifs at h with hsep
    rw [mem_cons, not_or]
    exact ⟨Ne.symm hsep, ih (Option.map_eq_none_iff.mp h)⟩

theorem splitByte_of_not_mem (h : sep ∉ s) : splitByte sep s = [s] := by
  induction s with
  | nil => rfl
  | cons b bs ih =>
    rw [mem_cons, not_or] at h
    rw [splitByte, if_neg (Ne.symm h.1), ih h.2]

theorem splitByte_append (t : Bytes) (h : sep ∉ s) :
    splitByte sep (s ++ sep :: t) = s :: splitByte sep t := by
  induction s with
  | nil => simp [splitByte]
  | cons b bs ih =>
    rw [mem_cons, not_or] at h
    rw [cons_append, splitByte, if_neg (Ne.symm h.1), ih h.2]

theorem mem_splitByte (sep : Byte) (h : b ∈ s) : b = sep ∨ ∃ part ∈ splitByte sep s, b ∈ part := by
  induction s with
  | nil => cases h
  | cons c s ih =>
    rw [splitByte]
    by_cases hc : c = sep
    · rw [if_pos hc]
      rcases mem_cons.mp h with rfl | h
      · exact Or.inl hc
      · exact (ih h).imp_right fun ⟨part, hpart, hb⟩ => ⟨part, mem_cons_of_mem _ hpart, hb⟩
    · rw [if_neg hc]
      rcases hsplit : splitByte sep s with _ | ⟨part, parts⟩
      · rw [hsplit] at ih
        rcases mem_cons.mp h with rfl | h
        · exact Or.inr ⟨_, mem_singleton_self _, mem_singleton_self _⟩
        · exact (ih h).imp_right fun ⟨_, hpart, _⟩ => absurd hpart not_mem_nil
      · rw [hsplit] at ih
        rcases mem_cons.mp h with rfl | h
        · exact Or.inr ⟨_, mem_cons_self, mem_cons_self⟩
        · refine (ih h).imp_right ?_
          rintro ⟨part', hpart', hb⟩
          rcases mem_cons.mp hpart' with rfl | hpart'
          · exact ⟨_, mem_cons_self, mem_cons_of_mem _ hb⟩
          · exact ⟨part', mem_cons_of_mem _ hpart', hb⟩

/-! ## §4 Lines -/

/-- A text that stands in one line and keeps its end there. -/
structure IsPlain (s : Bytes) : Prop where
  noNewline : (0x0a : Byte) ∉ s
  noCR : s.getLast? ≠ some 0x0d

theorem isPlain_of_forall (h : ∀ b ∈ s, b ≠ 0x0a ∧ b ≠ 0x0d) : IsPlain s :=
  ⟨fun hmem => (h _ hmem).1 rfl, fun hlast => (h _ (mem_of_getLast? hlast)).2 rfl⟩

/-- A text that a scanner delivers as one line, when a line end follows. -/
structure IsLine (line : Bytes) : Prop where
  noNewline : (0x0a : Byte) ∉ line
  noCR : line.getLast? ≠ some 0x0d
  short : line.length < maxScanTokenSize

def unlines (lines : List Bytes) : Bytes :=
  lines.flatMap fun line => line ++ [0x0a]

def joinLines : List Bytes → Bytes
  | [] => []
  | [line] => line
  | line :: lines => line ++ 0x0a :: joinLines lines

theorem dropCR_eq (h : line.getLast? ≠ some 0x0d) : dropCR line = line :=
  if_neg h

/-- A scanner reads text without a line end into its current line. -/
theorem scanLinesFrom_append (rest : Bytes) (hs : (0x0a : Byte) ∉ s)
    (hshort : line.length + s.length < maxScanTokenSize) :
    scanLinesFrom line (s ++ rest) = scanLinesFrom (line ++ s) rest := by
  induction s generalizing line with
  | nil => rw [nil_append, append_nil]
  | cons b bs ih =>
    rw [mem_cons, not_or] at hs
    rw [length_cons] at hshort
    rw [cons_append, scanLinesFrom, if_neg (Ne.symm hs.1), if_neg (by omega)]
    rw [ih hs.2 (by rw [length_append, length_singleton]; omega), append_assoc]
    rfl

theorem scanLinesFrom_line (h : IsLine line) (rest : Bytes) :
    scanLinesFrom [] (line ++ 0x0a :: rest) =
      (line :: (scanLinesFrom [] rest).1, (scanLinesFrom [] rest).2) := by
  rw [scanLinesFrom_append _ h.noNewline (by simpa using h.short), nil_append, scanLinesFrom,
    if_pos rfl, dropCR_eq h.noCR]

/-- The lines of a text that has been made of lines. -/
theorem scanLines_unlines (h : ∀ line ∈ lines, IsLine line) :
    scanLines (unlines lines) = (lines, false) := by
  unfold scanLines
  induction lines with
  | nil => rfl
  | cons line lines ih =>
    obtain ⟨hline, hrest⟩ := forall_mem_cons.mp h
    rw [unlines, flatMap_cons, append_assoc, singleton_append]
    change scanLinesFrom [] (line ++ 0x0a :: unlines lines) = _
    rw [scanLinesFrom_line hline, ih hrest]

/-- Without a line end at the end of the text, a last line that is not empty is delivered too. -/
theorem scanLines_joinLines (h : ∀ line ∈ lines, IsLine line)
    (hlast : lines.getLast? ≠ some []) : scanLines (joinLines lines) = (lines, false) := by
  unfold scanLines
  induction lines with
  | nil => rfl
  | cons line lines ih =>
    obtain ⟨hline, hrest⟩ := forall_mem_cons.mp h
    cases lines with
    | nil =>
      have hne : line ≠ [] := by
        rintro rfl
        exact hlast rfl
      have hread : scanLinesFrom [] (line ++ []) = scanLinesFrom ([] ++ line) [] :=
        scanLinesFrom_append [] hline.noNewline (by simpa using hline.short)
      rw [append_nil, nil_append] at hread
      rw [joinLines, hread, scanLinesFrom, if_neg hne, dropCR_eq hline.noCR]
    | cons line' lines' =>
      rw [getLast?_cons_cons] at hlast
      rw [joinLines, scanLinesFrom_line hline, ih hrest hlast]
      exact cons_ne_nil _ _

theorem scanLinesFrom_long (rest : Bytes) (hs : (0x0a : Byte) ∉ s)
    (hline : line.length < maxScanTokenSize) (hlong : maxScanTokenSize ≤ line.length + s.length) :
    scanLinesFrom line (s ++ rest) = ([], true) := by
  induction s generalizing line with
  | nil =>
    rw [length_nil, add_zero] at hlong
    exact absurd hline (not_lt.mpr hlong)
  | cons b bs ih =>
    rw [mem_cons, not_or] at hs
    rw [length_cons] at hlong
    rw [cons_append, scanLinesFrom, if_neg (Ne.symm hs.1)]
    split
    · rfl
    · next hroom =>
      have hlength : (line ++ [b]).length = line.length + 1 := by
        rw [length_append, length_singleton]
      exact ih hs.2 (by omega) (by omega)

/-- Of lines that are not empty a scanner delivers all, or it stops at one that does not fit. -/
theorem scanLines_joinLines_cases (h : ∀ line ∈ lines, IsPlain line ∧ line ≠ []) :
    scanLines (joinLines lines) = (lines, false) ∨
      (scanLines (joinLines lines)).2 = true ∧ [] ∉ (scanLines (joinLines lines)).1 := by
  unfold scanLines
  induction lines with
  | nil => exact Or.inl rfl
  | cons line lines ih =>
    obtain ⟨⟨hplain, hne⟩, hrest⟩ := forall_mem_cons.mp h
    -- a line that fits is delivered, and the first that does not ends the scan
    by_cases hshort : line.length < maxScanTokenSize
    · have hline : IsLine line := ⟨hplain.noNewline, hplain.noCR, hshort⟩
      cases lines with
      | nil =>
        refine Or.inl (scanLines_joinLines (by simpa using hline) ?_)
        simpa using hne
      | cons line' lines' =>
        rw [joinLines, scanLinesFrom_line hline]
        · refine (ih hrest).imp (fun hall => by rw [hall]) ?_
          rintro ⟨hlong, hblank⟩
          refine ⟨hlong, fun hmem => ?_⟩
          rcases mem_cons.mp hmem with hnil | hmem
          · exact hne hnil.symm
          · exact hblank hmem
        · exact cons_ne_nil _ _
    · have hlong : maxScanTokenSize ≤ ([] : Bytes).length + line.length := by simpa using hshort
      refine Or.inr ?_
      have hstop : ∀ rest, scanLinesFrom [] (line ++ rest) = ([], true) := fun rest =>
        scanLinesFrom_long rest hplain.noNewline (by decide) hlong
      cases lines with
      | nil =>
        have hlast := hstop []
        rw [append_nil] at hlast
        rw [joinLines, hlast]
        exact ⟨rfl, not_mem_nil⟩
      | cons line' lines' =>
        rw [joinLines, hstop]
        · exact ⟨rfl, not_mem_nil⟩
        · exact cons_ne_nil _ _

theorem dropCR_subset (h : b ∈ dropCR line) : b ∈ line := by
  unfold dropCR at h
  split at h
  · exact dropLast_subset line h
  · exact h

theorem length_dropCR_le (line : Bytes) : (dropCR line).length ≤ line.length := by
  unfold dropCR
  split
  · rw [length_dropLast]
    exact sub_le _ _
  · exact le_refl _

theorem mem_scanLinesFrom {cur text : Bytes} (hcur : (0x0a : Byte) ∉ cur)
    (hshort : cur.length < maxScanTokenSize) (h : line ∈ (scanLinesFrom cur text).1) :
    (0x0a : Byte) ∉ line ∧ line.length < maxScanTokenSize := by
  induction text generalizing cur with
  | nil =>
    rw [scanLinesFrom] at h
    split at h
    · cases h
    · rw [mem_singleton.mp h]
      exact ⟨fun hmem => hcur (dropCR_subset hmem), lt_of_le_of_lt (length_dropCR_le cur) hshort⟩
  | cons b bs ih =>
    rw [scanLinesFrom] at h
    split at h
    · rcases mem_cons.mp h with rfl | hmem
      · exact ⟨fun hmem => hcur (dropCR_subset hmem), lt_of_le_of_lt (length_dropCR_le cur) hshort⟩
      · exact ih not_mem_nil (by decide) hmem
    · next hne =>
      split at h
      · cases h
      · next hroom =>
        refine ih ?_ ?_ h
        · rw [mem_append, mem_singleton, not_or]
          exact ⟨hcur, Ne.symm hne⟩
        · rw [length_append, length_singleton]
          omega

/-- What a scanner delivers of a line without a line end, when `line` has been read of it. -/
theorem scanLinesFrom_joinLines (hs : (0x0a : Byte) ∉ s)
    (hlines : ∀ s ∈ lines, (0x0a : Byte) ∉ s) {out : Bytes}
    (h : out ∈ (scanLinesFrom line (joinLines (s :: lines))).1) :
    ∃ raw ∈ (line ++ s) :: lines, out = dropCR raw := by
  -- on the lines, and within a line on its bytes
  induction lines generalizing line s with
  | nil =>
    rw [joinLines] at h
    induction s generalizing line with
    | nil =>
      rw [scanLinesFrom] at h
      split at h
      · cases h
      · exact ⟨line ++ [], mem_singleton_self _, by rw [append_nil]; exact mem_singleton.mp h⟩
    | cons b bs ih =>
      rw [mem_cons, not_or] at hs
      rw [scanLinesFrom, if_neg (Ne.symm hs.1)] at h
      split at h
      · cases h
      · have hout := ih hs.2 h
        rwa [append_assoc, singleton_append] at hout
  | cons next lines ihlines =>
    obtain ⟨hnext, hrest⟩ := forall_mem_cons.mp hlines
    change out ∈ (scanLinesFrom line (s ++ 0x0a :: joinLines (next :: lines))).1 at h
    induction s generalizing line with
    | nil =>
      rw [nil_append, scanLinesFrom, if_pos rfl] at h
      rcases mem_cons.mp h with rfl | h
      · exact ⟨line ++ [], mem_cons_self, by rw [append_nil]⟩
      · obtain ⟨raw, hraw, hout⟩ := ihlines hnext hrest h
        exact ⟨raw, mem_cons_of_mem _ hraw, hout⟩
    | cons b bs ih =>
      rw [mem_cons, not_or] at hs
      rw [cons_append, scanLinesFrom, if_neg (Ne.symm hs.1)] at h
      split at h
      · cases h
      · obtain ⟨raw, hraw, hout⟩ := ih hs.2 h
        rw [append_assoc, singleton_append] at hraw
        exact ⟨raw, hraw, hout⟩

end AmneziaWG.Lib
