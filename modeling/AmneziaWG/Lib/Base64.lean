import AmneziaWG.Lib.Text

/-!
# Base64

Embedding of what is used of `encoding/base64`: `RawStdEncoding.Encode` and
`StdEncoding.DecodeString`.
-/

namespace AmneziaWG.Lib

def base64Alphabet : Bytes :=
  ascii "ABCDEFGHIJKLMNOPQRSTUVWXYZabcdefghijklmnopqrstuvwxyz0123456789+/"

def base64Char (v : ℕ) : Byte := base64Alphabet.getD v 0

def base64Value (c : Byte) : Option ℕ := base64Alphabet.findIdx? (· = c)

/-! ## §1 Encoding -/

/-- `RawStdEncoding.EncodedLen`. -/
def rawBase64Len (n : ℤ) : ℤ := n / 3 * 4 + (n % 3 * 8 + 5) / 6

/-- `RawStdEncoding.Encode`: no padding behind the last group. -/
def encodeRawBase64 : Bytes → Bytes
  | [] => []
  | [a] => [base64Char (a.toNat >>> 2), base64Char ((a.toNat &&& 3) <<< 4)]
  | [a, b] =>
    [base64Char (a.toNat >>> 2), base64Char (((a.toNat &&& 3) <<< 4) ||| (b.toNat >>> 4)),
      base64Char ((b.toNat &&& 15) <<< 2)]
  | a :: b :: c :: rest =>
    [base64Char (a.toNat >>> 2), base64Char (((a.toNat &&& 3) <<< 4) ||| (b.toNat >>> 4)),
      base64Char (((b.toNat &&& 15) <<< 2) ||| (c.toNat >>> 6)), base64Char (c.toNat &&& 63)] ++
        encodeRawBase64 rest

/-! ## §2 Decoding -/

def base64Bytes (w x y z : ℕ) : Bytes :=
  [BitVec.ofNat 8 ((w <<< 2) ||| (x >>> 4)), BitVec.ofNat 8 ((x <<< 4) ||| (y >>> 2)),
    BitVec.ofNat 8 ((y <<< 6) ||| z)]

/-- Groups of four characters.  Only the last group may be padded; bits that are left over are not
looked at. -/
def decodeQuanta : Bytes → Option Bytes
  | [] => some []
  | a :: b :: c :: d :: rest => do
    let w ← base64Value a
    let x ← base64Value b
    if d = asciiByte '=' then
      if rest ≠ [] then none
      else if c = asciiByte '=' then return (base64Bytes w x 0 0).take 1
      else
        let y ← base64Value c
        return (base64Bytes w x y 0).take 2
    else
      let y ← base64Value c
      let z ← base64Value d
      return base64Bytes w x y z ++ (← decodeQuanta rest)
  | _ => none

/-- `StdEncoding.DecodeString`: line ends are skipped wherever they stand. -/
def decodeBase64 (s : Bytes) : Option Bytes :=
  decodeQuanta (s.filter fun c => c ≠ 0x0a ∧ c ≠ 0x0d)

example : decodeBase64 (ascii "aGkh\nYQ==") = some (ascii "hi!a") := by decide +kernel

example : encodeRawBase64 (ascii "hi!a") = ascii "aGkhYQ" := by decide +kernel

end AmneziaWG.Lib
