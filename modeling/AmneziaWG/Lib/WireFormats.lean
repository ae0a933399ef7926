import AmneziaWG.Lib.Parser

/-!
# STUN, DNS and Text Messages

Parsers of the formats, by their own lengths and counts: the attributes of a STUN message, the
sections of a DNS message with the options of an OPT record, and the blank line that ends the header
of a text message.

## Main results

- `consumes_stunMessage`: a header and attributes in front of anything.
- `consumes_dnsMessage`: a message with one question and one record.
- `afterBlankLine_lines`: where the header of a text message ends.
-/

namespace AmneziaWG.Lib

open List BitVec Nat

/-! ## §1 STUN -/

structure StunAttribute where
  type : BitVec 16
  value : Bytes
  deriving DecidableEq, Repr

structure StunMessage where
  type : BitVec 16
  length : BitVec 16
  cookie : Bytes
  transactionID : Bytes
  attributes : List StunAttribute
  deriving DecidableEq, Repr

/-- Four bytes and the value.  No attribute is padded: its length is a multiple of four. -/
def stunAttribute : Parser StunAttribute := do
  let type ← takeBE16
  let length ← takeBE16
  require (length.toNat % 4 = 0)
  let value ← takeBytes length.toNat
  return { type, value }

/-- The header, and attributes that end with the length that it states. -/
def stunMessage : Parser StunMessage := do
  let type ← takeBE16
  let length ← takeBE16
  let cookie ← takeBytes 4
  let transactionID ← takeBytes 12
  let body ← takeBytes length.toNat
  let attributes ← items stunAttribute body
  return { type, length, cookie, transactionID, attributes }

def StunAttribute.bytes (a : StunAttribute) : Bytes :=
  be16 a.type ++ (be16 (BitVec.ofNat 16 a.value.length) ++ a.value)

theorem consumes_stunAttribute {a : StunAttribute} (hlen : a.value.length < 2 ^ 16)
    (hfour : a.value.length % 4 = 0) :
    Consumes stunAttribute a.bytes a := by
  have hword : (BitVec.ofNat 16 a.value.length).toNat = a.value.length := by
    rw [toNat_ofNat, mod_eq_of_lt hlen]
  refine (consumes_takeBE16 a.type).bind ((consumes_takeBE16 _).bind ?_)
  exact (consumes_require (by rw [hword]; exact hfour)).bind
    ((consumes_takeBytes hword.symm).bind_pure)

/-- A header and attributes of the stated length are a message. -/
theorem consumes_stunMessage (type : BitVec 16) (cookie transactionID : Bytes)
    (attributes : List StunAttribute)
    (hcookie : cookie.length = 4) (htransaction : transactionID.length = 12)
    (hattributes : ∀ a ∈ attributes, a.value.length < 2 ^ 16 ∧ a.value.length % 4 = 0)
    (hlen : (attributes.map StunAttribute.bytes).flatten.length < 2 ^ 16) : Consumes stunMessage
      (be16 type ++ (be16 (BitVec.ofNat 16 (attributes.map StunAttribute.bytes).flatten.length) ++
        (cookie ++ (transactionID ++ (attributes.map StunAttribute.bytes).flatten))))
      { type, length := BitVec.ofNat 16 (attributes.map StunAttribute.bytes).flatten.length, cookie,
        transactionID, attributes } := by
  have hword : (BitVec.ofNat 16 (attributes.map StunAttribute.bytes).flatten.length).toNat =
      (attributes.map StunAttribute.bytes).flatten.length := by
    rw [toNat_ofNat, mod_eq_of_lt hlen]
  have hitems : Consumes (items stunAttribute (attributes.map StunAttribute.bytes).flatten)
      [] attributes := by
    have h := consumes_items (p := stunAttribute) (l := attributes.map fun a => (a.bytes, a)) ?_
    · simpa only [map_map, Function.comp_def, map_id'] using h
    · rintro x hx
      obtain ⟨a, ha, rfl⟩ := mem_map.mp hx
      exact ⟨consumes_stunAttribute (hattributes a ha).1
        (hattributes a ha).2, by simp [StunAttribute.bytes, be16]⟩
  refine (consumes_takeBE16 type).bind ((consumes_takeBE16 _).bind ?_)
  refine (consumes_takeBytes hcookie).bind ((consumes_takeBytes htransaction).bind ?_)
  exact (consumes_takeBytes hword.symm).bind_last hitems.bind_pure

/-! ## §2 DNS -/

structure DnsQuestion where
  name : List Bytes
  type : BitVec 16
  cls : BitVec 16
  deriving DecidableEq, Repr

/-- A resource record.  The data of an OPT record is a list of options. -/
structure DnsRecord where
  name : List Bytes
  type : BitVec 16
  cls : BitVec 16
  ttl : Bytes
  rdata : Bytes
  options : List (BitVec 16 × Bytes)
  deriving DecidableEq, Repr

structure DnsMessage where
  id : Bytes
  flags : BitVec 16
  questions : List DnsQuestion
  answers : List DnsRecord
  authorities : List DnsRecord
  additionals : List DnsRecord
  deriving DecidableEq, Repr

/-- The labels of a name, which ends with the empty label or with a pointer. -/
def dnsLabels : ℕ → Parser (List Bytes)
  | 0 => failure
  | fuel + 1 => do
    let n ← takeByte
    if n = 0 then return []
    else if n.toNat < 64 then do
      let label ← takeBytes n.toNat
      let labels ← dnsLabels fuel
      return label :: labels
    else if 192 ≤ n.toNat then do
      let _ ← takeByte
      return []
    else failure

/-- A name; it has at most 255 bytes. -/
def dnsName : Parser (List Bytes) := dnsLabels 128

def dnsQuestion : Parser DnsQuestion := do
  let name ← dnsName
  let type ← takeBE16
  let cls ← takeBE16
  return { name, type, cls }

def dnsOption : Parser (BitVec 16 × Bytes) := do
  let code ← takeBE16
  let length ← takeBE16
  let data ← takeBytes length.toNat
  return (code, data)

def dnsTypeOPT : BitVec 16 := 41

/-- The options of an OPT record; other data has no structure. -/
def dnsOptions (type : BitVec 16) (rdata : Bytes) : Parser (List (BitVec 16 × Bytes)) :=
  if type = dnsTypeOPT then items dnsOption rdata else pure []

def dnsRecord : Parser DnsRecord := do
  let name ← dnsName
  let type ← takeBE16
  let cls ← takeBE16
  let ttl ← takeBytes 4
  let rdlength ← takeBE16
  let rdata ← takeBytes rdlength.toNat
  let options ← dnsOptions type rdata
  return { name, type, cls, ttl, rdata, options }

/-- The sections, by the counts of the header. -/
def dnsMessage : Parser DnsMessage := do
  let id ← takeBytes 2
  let flags ← takeBE16
  let qdcount ← takeBE16
  let ancount ← takeBE16
  let nscount ← takeBE16
  let arcount ← takeBE16
  let questions ← times dnsQuestion qdcount.toNat
  let answers ← times dnsRecord ancount.toNat
  let authorities ← times dnsRecord nscount.toNat
  let additionals ← times dnsRecord arcount.toNat
  return { id, flags, questions, answers, authorities, additionals }

theorem consumes_dnsName_root : Consumes dnsName [0x00] [] := by
  have h : Consumes (dnsLabels 128) [0x00] [] := by
    rw [dnsLabels]
    exact (consumes_takeByte 0x00).bind_last (by rw [if_pos rfl]; exact Consumes.pure [])
  exact h

theorem consumes_dnsQuestion_root (type cls : BitVec 16) :
    Consumes dnsQuestion ([0x00] ++ (be16 type ++ be16 cls)) { name := [], type, cls } :=
  consumes_dnsName_root.bind ((consumes_takeBE16 type).bind (consumes_takeBE16 cls).bind_pure)

theorem consumes_dnsOption (code : BitVec 16) {data : Bytes} (hlen : data.length < 2 ^ 16) :
    Consumes dnsOption (be16 code ++ (be16 (BitVec.ofNat 16 data.length) ++ data))
      (code, data) := by
  have hword : data.length = (BitVec.ofNat 16 data.length).toNat := by
    rw [toNat_ofNat, mod_eq_of_lt hlen]
  exact (consumes_takeBE16 code).bind
    ((consumes_takeBE16 _).bind (consumes_takeBytes hword).bind_pure)

/-- A record of the root name, whose options are in order when it is an OPT record. -/
theorem consumes_dnsRecord_root (type cls : BitVec 16) (ttl rdata : Bytes)
    {options : List (BitVec 16 × Bytes)} (httl : ttl.length = 4) (hlen : rdata.length < 2 ^ 16)
    (hoptions : Consumes (dnsOptions type rdata) [] options) : Consumes dnsRecord
      ([0x00] ++ (be16 type ++
        (be16 cls ++ (ttl ++ (be16 (BitVec.ofNat 16 rdata.length) ++ rdata)))))
      { name := [], type, cls, ttl, rdata, options } := by
  have hword : rdata.length = (BitVec.ofNat 16 rdata.length).toNat := by
    rw [toNat_ofNat, mod_eq_of_lt hlen]
  refine consumes_dnsName_root.bind
    ((consumes_takeBE16 type).bind ((consumes_takeBE16 cls).bind ?_))
  refine (consumes_takeBytes httl).bind ((consumes_takeBE16 _).bind ?_)
  exact (consumes_takeBytes hword).bind_last hoptions.bind_pure

/-- A message whose sections are in order. -/
theorem consumes_dnsMessage (id : Bytes) (flags : BitVec 16)
    (questions : List (Bytes × DnsQuestion))
    (answers authorities additionals : List (Bytes × DnsRecord)) (hid : id.length = 2)
    (hquestions : ∀ x ∈ questions, Consumes dnsQuestion x.1 x.2)
    (hanswers : ∀ x ∈ answers, Consumes dnsRecord x.1 x.2)
    (hauthorities : ∀ x ∈ authorities, Consumes dnsRecord x.1 x.2)
    (hadditionals : ∀ x ∈ additionals, Consumes dnsRecord x.1 x.2)
    (hqd : questions.length < 2 ^ 16) (han : answers.length < 2 ^ 16)
    (hns : authorities.length < 2 ^ 16) (har : additionals.length < 2 ^ 16) : Consumes dnsMessage
      (id ++ (be16 flags ++
        (be16 (BitVec.ofNat 16 questions.length) ++ (be16 (BitVec.ofNat 16 answers.length) ++
        (be16 (BitVec.ofNat 16 authorities.length) ++ (be16 (BitVec.ofNat 16 additionals.length) ++
        ((questions.map Prod.fst).flatten ++ ((answers.map Prod.fst).flatten ++
        ((authorities.map Prod.fst).flatten ++ (additionals.map Prod.fst).flatten)))))))))
      { id, flags, questions := questions.map Prod.snd, answers := answers.map Prod.snd,
        authorities := authorities.map Prod.snd, additionals := additionals.map Prod.snd } := by
  have hword : ∀ {n : ℕ}, n < 2 ^ 16 → (BitVec.ofNat 16 n).toNat = n := fun hn => by
    rw [toNat_ofNat, mod_eq_of_lt hn]
  -- the header
  refine (consumes_takeBytes hid).bind
    ((consumes_takeBE16 flags).bind ((consumes_takeBE16 _).bind ?_))
  refine (consumes_takeBE16 _).bind ((consumes_takeBE16 _).bind ((consumes_takeBE16 _).bind ?_))
  -- the sections
  rw [hword hqd, hword han, hword hns, hword har]
  refine (Consumes.times hquestions).bind
    ((Consumes.times hanswers).bind ((Consumes.times hauthorities).bind ?_))
  exact (Consumes.times hadditionals).bind_pure

/-! ## §3 Text messages -/

/-- What stands behind the first blank line. -/
def afterBlankLine : Bytes → Option Bytes
  | [] => none
  | b :: rest =>
    if [0x0d, 0x0a, 0x0d, 0x0a] <+: b :: rest then some ((b :: rest).drop 4)
      else afterBlankLine rest

structure IsTextLine (line : Bytes) : Prop where
  text : ∃ text, line = text ++ [0x0d, 0x0a] ∧ text ≠ [] ∧ 0x0d ∉ text

theorem afterBlankLine_append {text rest : Bytes} (htext : 0x0d ∉ text) :
    afterBlankLine (text ++ rest) = afterBlankLine rest := by
  induction text with
  | nil => rfl
  | cons b text ih =>
    have hb : ¬[0x0d, 0x0a, 0x0d, 0x0a] <+: b :: (text ++ rest) := by
      intro hprefix
      exact htext (by rw [(cons_prefix_cons.mp hprefix).1]; exact mem_cons_self)
    rw [List.cons_append, afterBlankLine, if_neg hb,
      ih fun hmem => htext (List.mem_cons_of_mem b hmem)]

theorem afterBlankLine_lineEnd {b : Byte} {rest : Bytes} (hb : b ≠ 0x0d) :
    afterBlankLine ([0x0d, 0x0a] ++ b :: rest) = afterBlankLine (b :: rest) := by
  have hfirst : ¬[0x0d, 0x0a, 0x0d, 0x0a] <+: (0x0d : Byte) :: 0x0a :: b :: rest := by
    intro hprefix
    have := (cons_prefix_cons.mp (cons_prefix_cons.mp hprefix).2).2
    exact hb (cons_prefix_cons.mp this).1.symm
  have hsecond : ¬[0x0d, 0x0a, 0x0d, 0x0a] <+: (0x0a : Byte) :: b :: rest := by
    intro hprefix
    exact absurd (cons_prefix_cons.mp hprefix).1 (by decide)
  show afterBlankLine (0x0d :: 0x0a :: b :: rest) = _
  rw [afterBlankLine, if_neg hfirst, afterBlankLine, if_neg hsecond]

/-- The header of a message is its lines: the first blank line is the one behind them. -/
theorem afterBlankLine_lines {line : Bytes} {lines : List Bytes} (hline : IsTextLine line)
    (hlines : ∀ l ∈ lines, IsTextLine l) (rest : Bytes) :
    afterBlankLine ((line :: lines).flatten ++ ([0x0d, 0x0a] ++ rest)) = some rest := by
  induction lines generalizing line with
  | nil =>
    obtain ⟨text, rfl, -, hcr⟩ := hline.text
    rw [List.flatten_cons, List.flatten_nil, List.append_nil, List.append_assoc,
      afterBlankLine_append hcr]
    show afterBlankLine (0x0d :: 0x0a :: 0x0d :: 0x0a :: rest) = _
    rw [afterBlankLine, if_pos ⟨rest, rfl⟩]
    rfl
  | cons next lines ih =>
    have hrest := ih (hlines next mem_cons_self) fun l hl => hlines l (mem_cons_of_mem next hl)
    obtain ⟨text, rfl, -, hcr⟩ := hline.text
    obtain ⟨text', hnext, hne, hcr'⟩ := (hlines next mem_cons_self).text
    obtain ⟨b, tail, rfl⟩ := exists_cons_of_ne_nil hne
    rw [List.flatten_cons, List.append_assoc, List.append_assoc, afterBlankLine_append hcr]
    rw [flatten_cons, hnext] at hrest ⊢
    simp only [List.cons_append] at hrest ⊢
    rw [← List.cons_append, ← List.cons_append]
    exact (afterBlankLine_lineEnd fun hb => hcr' (by rw [hb]; exact mem_cons_self)).trans hrest

end AmneziaWG.Lib
