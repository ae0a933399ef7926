import AmneziaWG.Lib.Bytes

/-!
# Text Functions of the Go Standard Library

The functions of `strings`, `strconv`, `encoding/hex` and `bufio` that text protocols are
parsed with, on byte strings, following their documented behaviour.  `int` has 64 bits.
-/

namespace AmneziaWG.Lib

open List Nat

def ascii (s : String) : Bytes :=
  s.toList.map fun c => BitVec.ofNat 8 c.toNat

def asciiByte (c : Char) : Byte :=
  BitVec.ofNat 8 c.toNat

/-! ## §1 `strings` -/

/-- `strings.Cut(s, string(sep))`: the text before and after the first separator. -/
def cutByte (sep : Byte) : Bytes → Option (Bytes × Bytes)
  | [] => none
  | b :: bs =>
    if b = sep then some ([], bs)
    else (cutByte sep bs).map fun (before, after) => (b :: before, after)

/-- `strings.Split(s, string(sep))`. -/
def splitByte (sep : Byte) : Bytes → List Bytes
  | [] => [[]]
  | b :: bs =>
    if b = sep then [] :: splitByte sep bs
    else match splitByte sep bs with
      | [] => [[b]]
      | part :: parts => (b :: part) :: parts

/-- The width of the white space at the start of a text, `0` when there is none:
`unicode.IsSpace` on the first rune.  No other rune contains these byte sequences. -/
def spaceWidth : Bytes → ℕ
  | [] => 0
  | a :: rest =>
    if a = 0x20 ∨ (0x09 ≤ a ∧ a ≤ 0x0d) then 1
    else match rest with
      | b :: rest =>
        if a = 0xc2 ∧ (b = 0x85 ∨ b = 0xa0) then 2
        else match rest with
          | c :: _ =>
            if (a = 0xe1 ∧ b = 0x9a ∧ c = 0x80) ∨
                (a = 0xe2 ∧ b = 0x80 ∧ (c ≤ 0x8a ∧ 0x80 ≤ c ∨ c = 0xa8 ∨ c = 0xa9 ∨ c = 0xaf)) ∨
                (a = 0xe2 ∧ b = 0x81 ∧ c = 0x9f) ∨ (a = 0xe3 ∧ b = 0x80 ∧ c = 0x80) then 3
            else 0
          | [] => 0
      | [] => 0

/-- The loop of `strings.Fields`: `skip` bytes of white space are left to pass over, and
`field` is the field that is being read. -/
def fieldsFrom (skip : ℕ) (field : Bytes) : Bytes → List Bytes
  | [] => if field = [] then [] else [field]
  | b :: bs =>
    match skip with
    | k + 1 => fieldsFrom k field bs
    | 0 =>
      match spaceWidth (b :: bs) with
      | 0 => fieldsFrom 0 (field ++ [b]) bs
      | k + 1 => if field = [] then fieldsFrom k [] bs else field :: fieldsFrom k [] bs

/-- `strings.Fields`. -/
def fields (s : Bytes) : List Bytes :=
  fieldsFrom 0 [] s

theorem length_of_mem_fieldsFrom {skip : ℕ} {field s f : Bytes} (h : f ∈ fieldsFrom skip field s) :
    f.length ≤ field.length + s.length := by
  induction s generalizing skip field with
  | nil =>
    rw [fieldsFrom] at h
    -- the branches of the loop: each byte is skipped, kept or ends a field
    split at h
    · cases h
    · rw [mem_singleton.mp h]
      exact le_add_right _ _
  | cons b bs ih =>
    rw [length_cons]
    unfold fieldsFrom at h
    split at h
    · have hf := ih h
      omega
    · split at h
      · have hf := ih h
        rw [length_append, length_singleton] at hf
        omega
      · split at h
        · have hf := ih h
          rw [length_nil] at hf
          omega
        · rcases mem_cons.mp h with rfl | hmem
          · exact le_add_right _ _
          · have hf := ih hmem
            rw [length_nil] at hf
            omega

/-- `strings.TrimSpace` at the end of a text. -/
def trimRight : Bytes → Bytes
  | [] => []
  | b :: bs => if fields (b :: bs) = [] then [] else b :: trimRight bs

/-- `strings.TrimSpace` at the start of a text, with `skip` bytes left to drop. -/
def trimLeft (skip : ℕ) : Bytes → Bytes
  | [] => []
  | b :: bs =>
    match skip with
    | k + 1 => trimLeft k bs
    | 0 =>
      match spaceWidth (b :: bs) with
      | 0 => b :: bs
      | k + 1 => trimLeft k bs

/-- `strings.TrimSpace`. -/
def trimSpace (s : Bytes) : Bytes :=
  trimRight (trimLeft 0 s)

/-- `strings.TrimPrefix(s, head)`. -/
def trimHead (head s : Bytes) : Bytes :=
  if head <+: s then s.drop head.length else s

/-! ## §2 `strconv` -/

/-- Why a number is refused: `ErrSyntax` or `ErrRange`. -/
inductive NumError where
  | invalid
  | outOfRange
  deriving DecidableEq, Repr

def digitValue (b : Byte) : Option ℕ :=
  if 0x30 ≤ b ∧ b ≤ 0x39 then some (b.toNat - 0x30) else none

/-- The loop of `strconv.ParseUint`, with `n` read so far. -/
def parseUintFrom (maxVal : ℕ) (n : ℕ) : Bytes → Except NumError ℕ
  | [] => .ok n
  | b :: bs =>
    match digitValue b with
    | none => .error .invalid
    | some d => if maxVal < n * 10 + d then .error .outOfRange
      else parseUintFrom maxVal (n * 10 + d) bs

/-- `strconv.ParseUint(s, 10, bitSize)`. -/
def parseUint (s : Bytes) (bitSize : ℕ) : Except NumError ℕ :=
  if s = [] then .error .invalid else parseUintFrom (2 ^ bitSize - 1) 0 s

/-- `strconv.Atoi`. -/
def atoi (s : Bytes) : Except NumError ℤ :=
  match s with
  | [] => .error .invalid
  | b :: bs =>
    let neg := b = asciiByte '-'
    let digits := if neg ∨ b = asciiByte '+' then bs else s
    (parseUint digits 64).bind fun un =>
      if neg then if un > 2 ^ 63 then .error .outOfRange else .ok (-un)
      else if un ≥ 2 ^ 63 then .error .outOfRange else .ok un

theorem atoi_int {s : Bytes} {n : ℤ} (h : atoi s = .ok n) : -2 ^ 63 ≤ n ∧ n < 2 ^ 63 := by
  unfold atoi at h
  cases s with
  | nil => cases h
  | cons b bs =>
    dsimp only at h
    cases hun : parseUint (if b = asciiByte '-' ∨ b = asciiByte '+' then bs else b :: bs) 64 with
    | error err => simp [hun, Except.bind] at h
    | ok un =>
      simp only [hun, Except.bind] at h
      split_ifs at h <;> cases h <;> omega

theorem atoi_lt {s : Bytes} {n : ℤ} (h : atoi s = .ok n) : n < 2 ^ 63 := (atoi_int h).2

/-! ## §3 Formatting of numbers -/

/-- The digits of a number in base ten (`%d`). -/
def decimal (n : ℕ) : Bytes :=
  (Nat.toDigits 10 n).map asciiByte

theorem decimal_length_le {n k : ℕ} (hk : 0 < k) (h : n < 10 ^ k) : (decimal n).length ≤ k := by
  rw [decimal, length_map]
  exact (length_toDigits_le_iff (by decide) hk).mpr h

def hexDigit (d : ℕ) : Byte :=
  if d < 10 then BitVec.ofNat 8 (0x30 + d) else BitVec.ofNat 8 (0x57 + d)

/-- A 32-bit word as eight hexadecimal digits (`%08x`). -/
def hex8 (v : BitVec 32) : Bytes :=
  [28, 24, 20, 16, 12, 8, 4, 0].map fun shift => hexDigit ((v >>> shift) &&& 15#32).toNat

@[simp] theorem hex8_length (v : BitVec 32) : (hex8 v).length = 8 := rfl

/-! ## §4 `encoding/hex` -/

inductive HexError where
  | invalidByte (b : Byte)
  | oddLength
  deriving DecidableEq, Repr

def hexValue (b : Byte) : Option ℕ :=
  if 0x30 ≤ b ∧ b ≤ 0x39 then some (b.toNat - 0x30)
  else if 0x61 ≤ b ∧ b ≤ 0x66 then some (b.toNat - 0x57)
  else if 0x41 ≤ b ∧ b ≤ 0x46 then some (b.toNat - 0x37)
  else none

/-- `hex.DecodeString`. -/
def decodeHex : Bytes → Except HexError Bytes
  | [] => .ok []
  | [a] => match hexValue a with
    | none => .error (.invalidByte a)
    | some _ => .error .oddLength
  | a :: b :: rest =>
    match hexValue a, hexValue b with
    | none, _ => .error (.invalidByte a)
    | _, none => .error (.invalidByte b)
    | some x, some y => (decodeHex rest).map fun bs => BitVec.ofNat 8 (16 * x + y) :: bs

theorem length_decodeHex_le {s bs : Bytes} (h : decodeHex s = .ok bs) : bs.length ≤ s.length := by
  induction s using decodeHex.induct generalizing bs with
  | case1 => cases h; exact le_refl 0
  | case2 a ha => simp [decodeHex, ha] at h
  | case3 a x ha => simp [decodeHex, ha] at h
  | case4 a b rest ha => simp [decodeHex, ha] at h
  | case5 a b rest hb ha => simp [decodeHex, hb] at h
  | case6 a b rest x y ha hb ih =>
    rw [decodeHex, ha, hb] at h
    cases hrest : decodeHex rest with
    | error err => rw [hrest] at h; cases h
    | ok bs' =>
      rw [hrest] at h
      cases h
      have hle := ih hrest
      simp only [length_cons]
      omega

/-! ## §5 `bufio.Scanner` -/

/-- `bufio.MaxScanTokenSize`. -/
def maxScanTokenSize : ℕ := 64 * 1024

/-- `dropCR`: the line without one trailing carriage return. -/
def dropCR (line : Bytes) : Bytes :=
  if line.getLast? = some 0x0d then line.dropLast else line

/-- What a scanner delivers before it stops: the lines, and whether it stopped at a line
that is too long.  `line` is what has been read of the current line. -/
def scanLinesFrom (line : Bytes) : Bytes → List Bytes × Bool
  | [] => if line = [] then ([], false) else ([dropCR line], false)
  | b :: bs =>
    if b = 0x0a then
      let (lines, tooLong) := scanLinesFrom [] bs
      (dropCR line :: lines, tooLong)
    else if line.length + 1 ≥ maxScanTokenSize then ([], true)
    else scanLinesFrom (line ++ [b]) bs

/-- The lines of a text as `bufio.Scanner` delivers them. -/
def scanLines (text : Bytes) : List Bytes × Bool :=
  scanLinesFrom [] text

example : scanLines (ascii "a=1\r\nb=2\n\nc") =
    ([ascii "a=1", ascii "b=2", [], ascii "c"], false) := by
  decide

example : fields (ascii " r  12 x") = [ascii "r", ascii "12", ascii "x"] := by
  decide

end AmneziaWG.Lib
