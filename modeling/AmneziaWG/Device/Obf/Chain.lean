import AmneziaWG.Lib.Text

/-!
# I-Packet Specs

Embedding of `newObfChain` (`device/obf.go`) and of the tag builders that it calls
(`obf_bytes.go`, `obf_rand.go`, `obf_randchars.go`, `obf_randdigits.go`, `obf_data.go`,
`obf_datastring.go`, `obf_datasize.go`, `obf_timestamp.go`, `obf_imitate_obf.go`,
`obf_imitate_quic.go`): how the text of `i1` to `i5` becomes a list of generators.
-/

namespace AmneziaWG.Device

open AmneziaWG.Lib

/-! ## §1 Protocols to imitate -/

inductive ImitateProto where
  | none
  | quic
  | dns
  | stun
  | sip
  deriving DecidableEq, Repr

/-- `parseImitateProto`; `none` is the error "unknown imitate protocol". -/
def parseImitateProto (s : Bytes) : Option ImitateProto :=
  if s = [] ∨ s = ascii "none" then some .none
  else if s = ascii "quic" then some .quic
  else if s = ascii "dns" then some .dns
  else if s = ascii "stun" then some .stun
  else if s = ascii "sip" then some .sip
  else Option.none

/-! ## §2 Tags -/

/-- A generator of a part of an I-packet. -/
inductive Obf where
  | bytes (data : Bytes)
  | timestamp
  | rand (length : ℤ)
  | randChar (length : ℤ)
  | randDigit (length : ℤ)
  | data
  | dataString
  | dataSize (length : ℤ)
  | imitate (proto : ImitateProto) (length : ℤ)
  | qinit (sni : Bytes)
  deriving DecidableEq

/-- Why a builder refuses its argument. -/
inductive ObfError where
  | emptyArgument
  | oddAmountOfSymbols
  | hex (err : HexError)
  | num (err : NumError)
  | noServerName
  | serverNameTooLong
  deriving DecidableEq

def newBytesObf (val : Bytes) : Except ObfError Obf :=
  let val := trimHead (ascii "0x") val
  if val.length = 0 then .error .emptyArgument
  else if val.length % 2 ≠ 0 then .error .oddAmountOfSymbols
  else ((decodeHex val).mapError .hex).map .bytes

/-- The builders that take a length: `newRandObf` and its siblings. -/
def newLengthObf (mk : ℤ → Obf) (val : Bytes) : Except ObfError Obf :=
  ((atoi val).mapError .num).map mk

def newRandObf : Bytes → Except ObfError Obf := newLengthObf .rand

def newRandCharObf : Bytes → Except ObfError Obf := newLengthObf .randChar

def newRandDigitsObf : Bytes → Except ObfError Obf := newLengthObf .randDigit

def newDataSizeObf : Bytes → Except ObfError Obf := newLengthObf .dataSize

def newImitateObf (proto : ImitateProto) : Bytes → Except ObfError Obf :=
  newLengthObf (.imitate proto)

def newDataObf (_val : Bytes) : Except ObfError Obf := .ok .data

def newDataStringObf (_val : Bytes) : Except ObfError Obf := .ok .dataString

def newTimestampObf (_val : Bytes) : Except ObfError Obf := .ok .timestamp

def newQInitObf (val : Bytes) : Except ObfError Obf :=
  let sni := trimSpace val
  if sni = [] then .error .noServerName
  else if sni.length > 255 then .error .serverNameTooLong
  else .ok (.qinit sni)

/-- The map `obfBuilders`. -/
def obfBuilders (key : Bytes) : Option (Bytes → Except ObfError Obf) :=
  if key = ascii "b" then some newBytesObf
  else if key = ascii "t" then some newTimestampObf
  else if key = ascii "r" then some newRandObf
  else if key = ascii "rc" then some newRandCharObf
  else if key = ascii "rd" then some newRandDigitsObf
  else if key = ascii "d" then some newDataObf
  else if key = ascii "ds" then some newDataStringObf
  else if key = ascii "dz" then some newDataSizeObf
  else if key = ascii "q" then some (newImitateObf .quic)
  else if key = ascii "dns" then some (newImitateObf .dns)
  else if key = ascii "stun" then some (newImitateObf .stun)
  else if key = ascii "sip" then some (newImitateObf .sip)
  else if key = ascii "qinit" then some newQInitObf
  else none

/-! ## §3 Chains -/

/-- `obfChain`: the text and the generators of its tags. -/
structure ObfChain where
  spec : Bytes
  obfs : List Obf
  deriving DecidableEq

/-- What is wrong with one tag. -/
inductive TagError where
  | emptyTag
  | unknownTag (key : Bytes)
  | failedToBuild (key : Bytes) (err : ObfError)
  deriving DecidableEq

/-- `newObfChain` gives up at once on a tag without an end, and otherwise joins the errors
of all tags. -/
inductive ChainError where
  | missingEnclosing
  | joined (errs : List TagError)
  deriving DecidableEq

/-- One tag, given the text between `<` and `>`. -/
def buildTag (tag : Bytes) : Except TagError Obf :=
  match fields tag with
  | [] => .error .emptyTag
  | key :: args =>
    match obfBuilders key with
    | none => .error (.unknownTag key)
    | some builder => (builder (args.head?.getD [])).mapError (.failedToBuild key)

/-- The loop of `newObfChain`.  Each round consumes at least the two brackets of a tag. -/
def obfChainFrom : ℕ → List Obf → List TagError → Bytes → Except ChainError (List Obf)
  | 0, _, _, _ => .error .missingEnclosing
  | fuel + 1, obfs, errs, remaining =>
    match cutByte (asciiByte '<') remaining with
    | none => if errs = [] then .ok obfs else .error (.joined errs)
    | some (_, rest) =>
      match cutByte (asciiByte '>') rest with
      | none => .error .missingEnclosing
      | some (tag, remaining) =>
        match buildTag tag with
        | .error err => obfChainFrom fuel obfs (errs ++ [err]) remaining
        | .ok o => obfChainFrom fuel (obfs ++ [o]) errs remaining

def newObfChain (spec : Bytes) : Except ChainError ObfChain :=
  (obfChainFrom (spec.length + 1) [] [] spec).map fun obfs => { spec, obfs }

example : newObfChain (ascii "<b 0x00ff>.<r 12>") =
    .ok { spec := ascii "<b 0x00ff>.<r 12>", obfs := [.bytes [0x00, 0xff], .rand 12] } := by
  decide

end AmneziaWG.Device
