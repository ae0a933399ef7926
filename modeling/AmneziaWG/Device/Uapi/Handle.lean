import AmneziaWG.Device.Uapi.Get
import AmneziaWG.Lib.Reads

/-!
# UAPI Connections

Embedding of `IpcHandle` (`device/uapi.go`), which answers the requests on a connection one after
the other.  `IpcSetOperation` puts a scanner of its own on top of the reader of the connection.
When the operation ends, what the scanner has read ahead is lost.

## Main results

- `ipcSetOperation_outcome`: a set operation on a connection is `IpcSet` on the text that is still
  to come.
- `ipcHandle_pipelined_iff`: requests that are sent one behind the other are answered as if each had
  been sent after the reply to the one before if and only if the last read of every set operation
  ends with its request.
-/

set_option linter.dupNamespace false

namespace AmneziaWG.Device

open AmneziaWG.Lib List Option Nat

variable {B E : Type}

/-! ## §1 The set operation on a connection -/

/-- `ErrorCode`, with the numbers of `ipc/uapi_unix.go`. -/
def IpcErrorCode.errno : IpcErrorCode → ℤ
  | .io => -5
  | .protocol => -71
  | .invalid => -22
  | .portInUse => -98
  | .unknown => -55

/-- The status that `IpcHandle` writes. -/
def statusReply (err : Option IPCError) : Bytes :=
  ascii "errno=" ++ itoa ((err.map fun err => err.code.errno).getD 0) ++ ascii "\n\n"

namespace Device

/-- `IpcSetOperation(buffered.Reader)`: the outcome, and what is left to read of the connection.
`line` is what has been read of the current line. -/
def ipcSetOperation (env : Env B E) (line : Bytes) :
    Incoming → Bool → Device B E → IpcSetPeer → (Device B E × Option IPCError) × Incoming
  | [], deviceConfig, d, ipc =>
    (d.ipcSetLines env false (if line = [] then [] else [dropCR line]) deviceConfig ipc, [])
  | (b, last) :: s, deviceConfig, d, ipc =>
    if b = 0x0a then
      match d.setLine env (dropCR line) deviceConfig ipc with
      | .inl out => (out, skipRead last s)
      | .inr (deviceConfig, d, ipc) => ipcSetOperation env [] s deviceConfig d ipc
    else if line.length + 1 ≥ maxScanTokenSize then
      -- the buffer of the scanner is full with this byte
      (d.ipcSetLines env true [] deviceConfig ipc, s)
    else ipcSetOperation env (line ++ [b]) s deviceConfig d ipc

/-- How many bytes `IpcSetOperation` needs: up to the end of the blank line, or of the first line
that is refused. -/
def setNeeds (env : Env B E) (line : Bytes) : Bytes → Bool → Device B E → IpcSetPeer → Option ℕ
  | [], _, _, _ => none
  | b :: bs, deviceConfig, d, ipc =>
    if b = 0x0a then
      match d.setLine env (dropCR line) deviceConfig ipc with
      | .inl _ => some 1
      | .inr (deviceConfig, d, ipc) => (setNeeds env [] bs deviceConfig d ipc).map (· + 1)
    else if line.length + 1 ≥ maxScanTokenSize then none
    else (setNeeds env (line ++ [b]) bs deviceConfig d ipc).map (· + 1)

section SetOperation

variable {env : Env B E}

/-- On a connection the operation does what it does on the text that is still to come. -/
theorem ipcSetOperation_outcome (line : Bytes) (s : Incoming) (deviceConfig : Bool) (d : Device B E)
    (ipc : IpcSetPeer) : (d.ipcSetOperation env line s deviceConfig ipc).1 =
      d.ipcSetLines env (scanLinesFrom line (contents s)).2 (scanLinesFrom line (contents s)).1
        deviceConfig ipc := by
  induction s generalizing line deviceConfig d ipc with
  | nil =>
    rw [ipcSetOperation, contents, map_nil, scanLinesFrom]
    split_ifs <;> rfl
  | cons x s ih =>
    obtain ⟨b, last⟩ := x
    rw [ipcSetOperation, contents, map_cons, scanLinesFrom]
    split_ifs with hnewline hlong
    · dsimp only
      rw [ipcSetLines]
      rcases d.setLine env (dropCR line) deviceConfig ipc with out | ⟨deviceConfig', d', ipc'⟩
      · rfl
      · exact ih [] deviceConfig' d' ipc'
    · rfl
    · exact ih (line ++ [b]) deviceConfig d ipc

/-- What an operation needs is the same whatever follows, and all of the read that brings the last
byte of it is taken. -/
theorem ipcSetOperation_spec {line : Bytes} {t : Incoming} (s : Incoming) {deviceConfig : Bool}
    {d : Device B E} {ipc : IpcSetPeer} {k : ℕ}
    (h : d.setNeeds env line (contents t) deviceConfig ipc = some k) :
    ∃ before b last after, t = before ++ (b, last) :: after ∧ before.length + 1 = k ∧
      d.ipcSetOperation env line (t ++ s) deviceConfig ipc =
        ((d.ipcSetOperation env line t deviceConfig ipc).1, skipRead last (after ++ s)) := by
  induction t generalizing line deviceConfig d ipc k with
  | nil => cases h
  | cons x t ih =>
    obtain ⟨b, last⟩ := x
    rw [contents, map_cons, setNeeds] at h
    rw [cons_append, ipcSetOperation, ipcSetOperation]
    -- the operation is not over with this byte
    have hnext : ∀ {line' : Bytes} {deviceConfig' : Bool} {d' : Device B E} {ipc' : IpcSetPeer},
        (d'.setNeeds env line' (contents t) deviceConfig' ipc').map (· + 1) = some k →
        ∃ before b' last' after, (b, last) :: t = before ++ (b', last') :: after ∧
          before.length + 1 = k ∧ d'.ipcSetOperation env line' (t ++ s) deviceConfig' ipc' =
            ((d'.ipcSetOperation env line' t deviceConfig' ipc').1,
              skipRead last' (after ++ s)) := by
      intro line' deviceConfig' d' ipc' hneeds
      obtain ⟨k', hk', rfl⟩ := map_eq_some_iff.mp hneeds
      obtain ⟨before, b', last', after, rfl, hlen, hrest⟩ := ih hk'
      exact ⟨(b, last) :: before, b', last', after, rfl, by rw [length_cons, hlen], hrest⟩
    -- a line end, a line that has become too long, or another byte of the line
    split_ifs at h ⊢ with hnewline hlong
    · rcases hline : d.setLine env (dropCR line) deviceConfig ipc with out
        | ⟨deviceConfig', d', ipc'⟩
      · rw [hline] at h
        cases h
        exact ⟨[], b, last, t, rfl, rfl, rfl⟩
      · rw [hline] at h
        exact hnext h
    exact hnext h

theorem setNeeds_isSome_of_line {line rest bs : Bytes} {deviceConfig : Bool} {d : Device B E}
    {ipc : IpcSetPeer}
    (hrest : (0x0a : Byte) ∉ rest) (hshort : line.length + rest.length < maxScanTokenSize)
    (hbs : ∀ deviceConfig (d : Device B E) ipc, (d.setNeeds env [] bs deviceConfig ipc).isSome) :
    (d.setNeeds env line (rest ++ 0x0a :: bs) deviceConfig ipc).isSome := by
  induction rest generalizing line with
  | nil =>
    rw [nil_append, setNeeds, if_pos rfl]
    rcases d.setLine env (dropCR line) deviceConfig ipc with out | ⟨deviceConfig', d', ipc'⟩
    · rfl
    · rw [isSome_map]
      exact hbs deviceConfig' d' ipc'
  | cons b rest ih =>
    rw [mem_cons, not_or] at hrest
    rw [length_cons] at hshort
    rw [cons_append, setNeeds, if_neg (Ne.symm hrest.1), if_neg (by omega), isSome_map]
    exact ih hrest.2 (by rw [length_append, length_singleton]; omega)

/-- A request that ends with a blank line contains all that its operation needs. -/
theorem setNeeds_isSome {lines : List Bytes}
    (hlines : ∀ line ∈ lines, (0x0a : Byte) ∉ line ∧ line.length < maxScanTokenSize)
    (deviceConfig : Bool) (d : Device B E) (ipc : IpcSetPeer) :
    (d.setNeeds env [] (unlines lines ++ [0x0a]) deviceConfig ipc).isSome := by
  induction lines generalizing deviceConfig d ipc with
  | nil =>
    -- the blank line
    have hblank : d.setLine env (dropCR []) deviceConfig ipc = .inl (d.finishSet ipc) := if_pos rfl
    rw [unlines, flatMap_nil, nil_append, setNeeds, if_pos rfl, hblank]
    rfl
  | cons line lines ih =>
    obtain ⟨hline, hrest⟩ := forall_mem_cons.mp hlines
    have hcons : unlines (line :: lines) ++ [0x0a] = line ++ 0x0a :: (unlines lines ++ [0x0a]) := by
      simp [unlines]
    rw [hcons]
    exact setNeeds_isSome_of_line hline.1 (by rw [length_nil, zero_add]; exact hline.2) (ih hrest)

end SetOperation

end Device

/-! ## §2 The loop of `IpcHandle` -/

/-- How a connection ends: the client closes it, or `IpcHandle` does. -/
inductive Ended where
  | closed
  | invalidOperation
  deriving DecidableEq, Repr

/-- An operation that has been carried out: how many bytes were still to come when it began, what
was written, and the device behind it. -/
structure Served (B E : Type) where
  start : ℕ
  reply : Bytes
  device : Device B E

/-- What has happened on a connection. -/
structure Handled (B E : Type) where
  served : List (Served B E)
  device : Device B E
  ended : Ended

/-- An iteration of the loop of `IpcHandle`. -/
inductive Turn (B E : Type) where
  | ended (how : Ended)
  | served (reply : Bytes) (device : Device B E) (rest : Incoming)

namespace Device

/-- One iteration of the loop of `IpcHandle`. -/
def ipcTurn (env : Env B E) (report : Report E) (s : Incoming) (d : Device B E) : Turn B E :=
  match readString s with
  | none => .ended .closed
  | some (op, s) =>
    if op = ascii "set=1\n" then
      let ((d, err), s) := d.ipcSetOperation env [] s true IpcSetPeer.new
      .served (statusReply err) d s
    else if op = ascii "get=1\n" then
      match readByte s with
      | none => .ended .closed
      | some (nextByte, s) =>
        if nextByte ≠ 0x0a then
          .served (statusReply
            (some (plainError .invalid "trailing character in UAPI get: %q" [[nextByte]]))) d s
        else .served (d.ipcGet report ++ statusReply none) d s
    else .ended .invalidOperation

/-- The loop of `IpcHandle`, for at most `n` iterations. -/
def ipcHandleFrom (env : Env B E) (report : Report E) : ℕ → Incoming → Device B E → Handled B E
  | 0, _, d => { served := [], device := d, ended := .closed }
  | n + 1, s, d =>
    match d.ipcTurn env report s with
    | .ended how => { served := [], device := d, ended := how }
    | .served reply d' rest =>
      let handled := ipcHandleFrom env report n rest d'
      { handled with served := { start := s.length, reply, device := d' } :: handled.served }

/-- `IpcHandle`.  Every iteration reads a byte at least. -/
def ipcHandle (env : Env B E) (report : Report E) (s : Incoming) (d : Device B E) : Handled B E :=
  d.ipcHandleFrom env report (s.length + 1) s

section Loop

variable {env : Env B E} {report : Report E}

theorem ipcSetOperation_suffix (line : Bytes) (s : Incoming) (deviceConfig : Bool) (d : Device B E)
    (ipc : IpcSetPeer) : (d.ipcSetOperation env line s deviceConfig ipc).2 <:+ s := by
  induction s generalizing line deviceConfig d ipc with
  | nil => exact suffix_rfl
  | cons x s ih =>
    obtain ⟨b, last⟩ := x
    have hskip : skipRead last s <:+ (b, last) :: s :=
      (skipRead_suffix last s).trans (suffix_cons _ _)
    rw [ipcSetOperation]
    split_ifs
    · rcases d.setLine env (dropCR line) deviceConfig ipc with out | ⟨deviceConfig', d', ipc'⟩
      · exact hskip
      · exact (ih [] deviceConfig' d' ipc').trans (suffix_cons _ _)
    · exact suffix_cons _ _
    · exact (ih (line ++ [b]) deviceConfig d ipc).trans (suffix_cons _ _)

theorem ipcTurn_length {s rest : Incoming} {d d' : Device B E} {reply : Bytes}
    (h : d.ipcTurn env report s = .served reply d' rest) : rest.length < s.length := by
  unfold ipcTurn at h
  cases hread : readString s with
  | none =>
    rw [hread] at h
    cases h
  | some pair =>
    obtain ⟨op, s'⟩ := pair
    obtain ⟨hlen, hne⟩ := readString_length hread
    have hpos := length_pos_of_ne_nil hne
    simp only [hread] at h
    -- what follows the first line is left, or less
    split_ifs at h with hset hget
    · cases h
      have hle : (d.ipcSetOperation env [] s' true IpcSetPeer.new).2.length ≤ s'.length :=
        (ipcSetOperation_suffix ..).length_le
      omega
    · cases s' with
      | nil => cases h
      | cons x s' =>
        obtain ⟨b, last⟩ := x
        simp only [readByte] at h
        rw [length_cons] at hlen
        split_ifs at h
        · cases h
          omega
        · cases h
          omega

theorem ipcHandleFrom_eq {n : ℕ} {s : Incoming} {d : Device B E} (h : s.length < n) :
    d.ipcHandleFrom env report n s = d.ipcHandle env report s := by
  induction n using Nat.strong_induction_on generalizing s d with
  | _ n ih =>
    obtain ⟨n, rfl⟩ : ∃ k, n = k + 1 := ⟨n - 1, by omega⟩
    rw [ipcHandle, ipcHandleFrom, ipcHandleFrom]
    cases hturn : d.ipcTurn env report s with
    | ended how => rfl
    | served reply d' rest =>
      have hlt := ipcTurn_length hturn
      have hleft := ih n (lt_succ_self n) (s := rest) (d := d') (by omega)
      by_cases hn : s.length = n
      · rw [hn]
      · have hright := ih s.length (by omega) (s := rest) (d := d') hlt
        simp only [hleft, hright]

theorem ipcHandle_eq (s : Incoming) (d : Device B E) :
    d.ipcHandle env report s =
      match d.ipcTurn env report s with
      | .ended how => { served := [], device := d, ended := how }
      | .served reply d' rest =>
        { d'.ipcHandle env report rest with
          served := { start := s.length, reply, device := d' } ::
            (d'.ipcHandle env report rest).served } := by
  rw [ipcHandle, ipcHandleFrom]
  cases hturn : d.ipcTurn env report s with
  | ended how => rfl
  | served reply d' rest => simp only [ipcHandleFrom_eq (ipcTurn_length hturn)]

end Loop

end Device

/-! ## §3 Requests -/

/-- A request: the lines of a set operation, or a get operation. -/
inductive Request where
  | set (lines : List Bytes)
  | get

/-- The lines of a set operation with the blank line that ends it. -/
def setBody (lines : List Bytes) : Bytes := unlines lines ++ [0x0a]

def Request.bytes : Request → Bytes
  | .set lines => ascii "set=1\n" ++ setBody lines
  | .get => ascii "get=1\n\n"

/-- No line of the request contains a line end, is read as the blank line, or is too long for a
scanner. -/
def Request.WellFormed : Request → Prop
  | .set lines => ∀ line ∈ lines,
      (0x0a : Byte) ∉ line ∧ dropCR line ≠ [] ∧ line.length < maxScanTokenSize
  | .get => True

section Requests

variable (env : Env B E) (report : Report E)

/-- What a request does on its own: the device behind it, and the reply. -/
def Request.answer (d : Device B E) : Request → Device B E × Bytes
  | .set lines => let (d, err) := d.ipcSet env (setBody lines); (d, statusReply err)
  | .get => (d, d.ipcGet report ++ statusReply none)

/-- All requests in their order, each with its own text. -/
def answers : List Request → Device B E → Handled B E
  | [], d => { served := [], device := d, ended := .closed }
  | r :: rs, d =>
    let handled := answers rs (r.answer env report d).1
    { handled with
      served :=
        { start := ((r :: rs).flatMap Request.bytes).length
          reply := (r.answer env report d).2
          device := (r.answer env report d).1 } :: handled.served }

/-- The first read that brings all that the operation of a request needs ends with the request. -/
def Request.ReadWhole (d : Device B E) (t : Incoming) : Request → Prop
  | .set lines => ∀ k, d.setNeeds env [] (setBody lines) true IpcSetPeer.new = some k →
      EndsWith ((ascii "set=1\n").length + k) t
  | .get => True

def ReadWhole : List Request → Incoming → Device B E → Prop
  | [], _, _ => True
  | r :: rs, s, d => r.ReadWhole env d (s.take r.bytes.length) ∧
      ReadWhole rs (s.drop r.bytes.length) (r.answer env report d).1

end Requests

section Answer

variable {env : Env B E} {report : Report E}

theorem ipcTurn_get {t : Incoming} (s : Incoming) (d : Device B E)
    (ht : contents t = Request.get.bytes) :
    d.ipcTurn env report (t ++ s) = .served (d.ipcGet report ++ statusReply none) d s := by
  have hbytes : Request.get.bytes = (ascii "get=1" ++ [0x0a]) ++ [0x0a] := by decide
  rw [hbytes] at ht
  obtain ⟨t₁, t₂, rfl, hop, hblank⟩ := map_eq_append_iff.mp ht
  obtain ⟨⟨b, last⟩, rfl, rfl⟩ := map_eq_singleton_iff.mp hblank
  have hread := readString_append ([((0x0a : Byte), last)] ++ s) hop (by decide)
  have hnotSet : ascii "get=1" ++ [0x0a] ≠ ascii "set=1\n" := by decide
  have hget : ascii "get=1" ++ [0x0a] = ascii "get=1\n" := by decide
  rw [append_assoc]
  simp only [Device.ipcTurn, hread, if_neg hnotSet, if_pos hget]
  rfl

/-- A set operation has the outcome of its own lines; what it leaves depends on how its request is
read. -/
theorem ipcTurn_set (report : Report E) {t : Incoming} (s : Incoming) (d : Device B E)
    {lines : List Bytes}
    (hwf : (Request.set lines).WellFormed) (ht : contents t = (Request.set lines).bytes)
    (hclosed : Closed (t ++ s)) : ∃ rest, d.ipcTurn env report (t ++ s) =
        .served ((Request.set lines).answer env report d).2
          ((Request.set lines).answer env report d).1 rest ∧
      rest <:+ t ++ s ∧ (rest = s ↔ (Request.set lines).ReadWhole env d t) := by
  have hbytes : (Request.set lines).bytes = (ascii "set=1" ++ [0x0a]) ++ setBody lines := rfl
  rw [hbytes] at ht
  obtain ⟨t₁, t₂, rfl, hop, hbody⟩ := map_eq_append_iff.mp ht
  have hread := readString_append (t₂ ++ s) hop (by decide)
  have hset : ascii "set=1" ++ [0x0a] = ascii "set=1\n" := by decide
  have hlen : t₁.length = (ascii "set=1\n").length := by
    rw [← contents_length, contents, hop, hset]
  -- the operation ends within the request
  have hsome : (d.setNeeds env [] (setBody lines) true IpcSetPeer.new).isSome :=
    Device.setNeeds_isSome (fun line hline => ⟨(hwf line hline).1, (hwf line hline).2.2⟩) ..
  obtain ⟨k, hk⟩ := isSome_iff_exists.mp hsome
  have hneeds : d.setNeeds env [] (contents t₂) true IpcSetPeer.new = some k := by
    rw [contents, hbody]
    exact hk
  obtain ⟨before, b, last, after, rfl, hbefore, hop₂⟩ := Device.ipcSetOperation_spec s hneeds
  have houtcome : (d.ipcSetOperation env [] (before ++ (b, last) :: after) true IpcSetPeer.new).1 =
      d.ipcSet env (setBody lines) := by
    rw [Device.ipcSetOperation_outcome, contents, hbody]
    rfl
  refine ⟨skipRead last (after ++ s), ?_, ?_, ?_⟩
  · rw [append_assoc]
    simp only [Device.ipcTurn, hread, if_pos hset, hop₂, houtcome]
    rfl
  · refine (skipRead_suffix last _).trans ⟨t₁ ++ before ++ [(b, last)], by simp⟩
  · -- nothing but the request is gone when the read that ends it ends with it
    have hclosed' : Closed ((t₁ ++ before) ++ (b, last) :: after ++ s) := by
      rw [append_assoc t₁]
      exact hclosed
    have hcount : (ascii "set=1\n").length + k = (t₁ ++ before).length + 1 := by
      rw [length_append, hlen, ← hbefore, add_assoc]
    rw [skipRead_eq_iff hclosed', ← hcount, append_assoc]
    constructor
    · intro h k' hk'
      cases hk.symm.trans hk'
      exact h
    · exact fun h => h k hk

theorem ipcHandle_leftover {s : Incoming} (front : Bytes) (d : Device B E) (hne : s ≠ [])
    (hsuffix : contents s <:+ front ++ [0x0a, 0x0a]) :
    d.ipcHandle env report s ≠ { served := [], device := d, ended := .closed } := by
  intro h
  rw [Device.ipcHandle_eq] at h
  unfold Device.ipcTurn at h
  cases hread : readString s with
  | none =>
    -- the last byte of a request ends a line
    obtain ⟨pre, hpre⟩ := hsuffix
    have hlast : (contents s).getLast? = some 0x0a := by
      have hne' : contents s ≠ [] := by
        intro hnil
        exact hne (map_eq_nil_iff.mp hnil)
      rw [← getLast?_append_of_ne_nil pre hne', hpre]
      simp
    exact not_mem_of_readString hread (mem_of_getLast? hlast)
  | some pair =>
    obtain ⟨op, s'⟩ := pair
    simp only [hread] at h
    split_ifs at h with hset hget
    · cases congrArg Handled.served h
    · cases s' with
      | cons x s' =>
        obtain ⟨b, last⟩ := x
        simp only [readByte] at h
        split_ifs at h
        · cases congrArg Handled.served h
        · cases congrArg Handled.served h
      | nil =>
        -- the bytes of a get operation without its blank line
        have hcontents := contents_readString hread
        rw [hget] at hcontents
        rw [hcontents, ← reverse_prefix] at hsuffix
        obtain ⟨post, hpost⟩ := hsuffix
        have hsecond := congrArg (fun l : Bytes => l[1]?) hpost
        simp [ascii, contents] at hsecond
    · cases congrArg Handled.ended h

theorem start_of_ipcHandle {s : Incoming} {d : Device B E} {x : Served B E} {xs : List (Served B E)}
    (h : (d.ipcHandle env report s).served = x :: xs) : x.start = s.length := by
  rw [Device.ipcHandle_eq] at h
  cases hturn : d.ipcTurn env report s with
  | ended how =>
    rw [hturn] at h
    cases h
  | served reply d' rest =>
    rw [hturn] at h
    cases h
    rfl

theorem handled_cons_inj {x y : Served B E} {h h' : Handled B E} :
    ({ h with served := x :: h.served } : Handled B E) = { h' with served := y :: h'.served } ↔
    x = y ∧ h = h' := by
  obtain ⟨served, device, ended⟩ := h
  obtain ⟨served', device', ended'⟩ := h'
  simp only [Handled.mk.injEq, cons.injEq, and_assoc]

theorem Request.set_bytes (lines : List Bytes) :
    ∃ front, (Request.set lines).bytes = front ++ [0x0a, 0x0a] := by
  rcases eq_nil_or_concat' lines with rfl | ⟨init, line, rfl⟩
  · exact ⟨ascii "set=1", rfl⟩
  · exact ⟨ascii "set=1\n" ++ (unlines init ++ line), by simp [Request.bytes, setBody, unlines]⟩

/-- Requests that arrive one behind the other are all answered as on their own if and only if they
are read as wholes. -/
theorem ipcHandle_answers_iff {requests : List Request} (hwf : ∀ r ∈ requests, r.WellFormed)
    {s : Incoming}
    (hcontents : contents s = requests.flatMap Request.bytes) (hclosed : Closed s)
    (d : Device B E) :
    d.ipcHandle env report s = answers env report requests d ↔
    ReadWhole env report requests s d := by
  -- on the requests; `t` are the bytes of the first one and `s` those of the others
  induction requests generalizing s d with
  | nil =>
    obtain rfl : s = [] := map_eq_nil_iff.mp hcontents
    exact iff_of_true rfl trivial
  | cons r rs ih =>
    obtain ⟨hr, hrs⟩ := forall_mem_cons.mp hwf
    rw [flatMap_cons] at hcontents
    obtain ⟨t, s, rfl, ht, hs⟩ := map_eq_append_iff.mp hcontents
    have hlen : t.length = r.bytes.length := by rw [← contents_length, contents, ht]
    have hstart : (t ++ s).length = ((r :: rs).flatMap Request.bytes).length := by
      rw [← contents_length, hcontents, flatMap_cons]
    have htake : (t ++ s).take r.bytes.length = t := take_left' hlen
    have hdrop : (t ++ s).drop r.bytes.length = s := drop_left' hlen
    rw [ReadWhole, htake, hdrop, answers, Device.ipcHandle_eq]
    cases r with
    | get =>
      rw [ipcTurn_get s d ht, ← hstart]
      dsimp only
      rw [handled_cons_inj]
      have htail := ih hrs hs hclosed.of_append d
      exact ⟨fun h => ⟨trivial, htail.mp h.2⟩, fun h => ⟨rfl, htail.mpr h.2⟩⟩
    | set lines =>
      obtain ⟨rest, hturn, hsuffix, hwhole⟩ := ipcTurn_set report s d hr ht hclosed
      rw [hturn, ← hstart]
      dsimp only
      rw [handled_cons_inj, ← hwhole]
      by_cases hrest : rest = s
      · rw [hrest, ih hrs hs hclosed.of_append]
        simp
      · refine iff_of_false (fun h => hrest ?_) fun h => hrest h.1
        -- the next operation would have to begin with the next request
        cases rs with
        | nil =>
          obtain rfl : s = [] := map_eq_nil_iff.mp hs
          obtain ⟨front, hfront⟩ := Request.set_bytes lines
          refine absurd h.2 (ipcHandle_leftover front _ hrest ?_)
          rw [← hfront, ← ht]
          rw [append_nil] at hsuffix
          exact hsuffix.map Prod.fst
        | cons r' rs =>
          have hserved : (Device.ipcHandle env report rest _).served = _ :=
            congrArg Handled.served h.2
          have hbegin := start_of_ipcHandle hserved
          have hsame : s.length = rest.length := by
            rw [← hbegin, ← contents_length, contents, hs]
          exact (suffix_of_suffix_length_le hsuffix (suffix_append t s)
            (le_of_eq hsame.symm)).eq_of_length
            hsame.symm

theorem setNeeds_le {line body : Bytes} {deviceConfig : Bool} {d : Device B E}
    {ipc : IpcSetPeer} {k : ℕ}
    (h : d.setNeeds env line body deviceConfig ipc = some k) : 1 ≤ k ∧ k ≤ body.length := by
  rw [← contents_markRead body] at h
  obtain ⟨before, b, last, after, heq, hlen, -⟩ := Device.ipcSetOperation_spec [] h
  have hcount := congrArg length heq
  rw [← contents_length, contents_markRead, length_append, length_cons] at hcount
  omega

theorem readWhole_marks (requests : List Request) (d : Device B E) :
    ReadWhole env report requests (marks (requests.map Request.bytes)) d := by
  induction requests generalizing d with
  | nil => trivial
  | cons r rs ih =>
    have hcons : marks ((r :: rs).map Request.bytes) = markRead r.bytes ++ marks
        (rs.map Request.bytes) := rfl
    have hlen : (markRead r.bytes).length = r.bytes.length := by
      rw [← contents_length, contents_markRead]
    rw [ReadWhole, hcons, take_left' hlen, drop_left' hlen]
    refine ⟨?_, ih _⟩
    cases r with
    | get => trivial
    | set lines =>
      intro k hk
      obtain ⟨hlow, hhigh⟩ := setNeeds_le hk
      refine endsWith_markRead (by omega) ?_
      rw [Request.bytes, length_append]
      omega

/-- **Requests that are sent one behind the other are answered as if each had been sent after the
reply to the one before** if and only if they are read as wholes: the first read that brings all
that a set operation needs ends with the request. -/
theorem ipcHandle_pipelined_iff {requests : List Request} {reads : List Bytes}
    (hwf : ∀ r ∈ requests, r.WellFormed) (hreads : reads.flatten = requests.flatMap Request.bytes)
    (d : Device B E) :
    d.ipcHandle env report (marks (requests.map Request.bytes)) = answers env report requests d ∧
      (d.ipcHandle env report (marks reads) = d.ipcHandle env report
        (marks (requests.map Request.bytes)) ↔ ReadWhole env report requests (marks reads) d) := by
  have hone : d.ipcHandle env report (marks (requests.map Request.bytes)) =
      answers env report requests d := by
    refine (ipcHandle_answers_iff hwf ?_ (closed_marks _) d).mpr (readWhole_marks requests d)
    rw [contents_marks, flatMap_def]
  refine ⟨hone, ?_⟩
  rw [hone]
  exact ipcHandle_answers_iff hwf (by rw [contents_marks, hreads]) (closed_marks _) d

end Answer

/-! ## §4 Two requests -/

def quietReport : Report Unit :=
  { dstToString := fun _ => []
    prefixString := fun _ _ => []
    lastHandshakeNano := fun _ => 0
    txBytes := fun _ => 0
    rxBytes := fun _ => 0 }

/-- A setting, and the question what is set. -/
def setThenGet : List Request := [.set [ascii "fwmark=1"], .get]

/-- The requests in reads that end with them, and in between. -/
def readsBetween : List Bytes :=
  [ascii "set=1\nfw", ascii "mark=1\n\n", ascii "get=1\n", ascii "\n"]

theorem setThenGet_wellFormed : ∀ r ∈ setThenGet, r.WellFormed := by
  intro r hr
  rcases mem_cons.mp hr with rfl | hr
  · intro line hline
    rw [mem_singleton.mp hline]
    decide
  · rw [mem_singleton.mp hr]
    trivial

/-- With a read that ends behind the first request both are answered. -/
theorem ipcHandle_readsBetween :
    (newDevice () : Device Unit Unit).ipcHandle Device.quietEnv quietReport (marks readsBetween) =
      (newDevice () : Device Unit Unit).ipcHandle Device.quietEnv quietReport
        (marks (setThenGet.map Request.bytes)) := by
  refine ((ipcHandle_pipelined_iff setThenGet_wellFormed (by decide +kernel) _).2).mpr
    ⟨?_, trivial, trivial⟩
  intro k hk
  have hneeds : (newDevice () : Device Unit Unit).setNeeds Device.quietEnv []
    (setBody [ascii "fwmark=1"]) true
      IpcSetPeer.new = some 10 := by decide +kernel
  cases hneeds.symm.trans hk
  show _ = _
  decide +kernel

/-- When both requests come in one read, the second one is lost. -/
theorem second_request_lost :
    ((newDevice () : Device Unit Unit).ipcHandle Device.quietEnv quietReport
        (marks [(setThenGet.map Request.bytes).flatten])).served.map Served.reply =
          [ascii "errno=0\n\n"] ∧
      ((newDevice () : Device Unit Unit).ipcHandle Device.quietEnv quietReport
        (marks (setThenGet.map Request.bytes))).served.length = 2 ∧
      (newDevice () : Device Unit Unit).ipcHandle Device.quietEnv quietReport
          (marks [(setThenGet.map Request.bytes).flatten]) ≠
        (newDevice () : Device Unit Unit).ipcHandle Device.quietEnv quietReport
          (marks (setThenGet.map Request.bytes)) := by
  have hlost : ((newDevice () : Device Unit Unit).ipcHandle Device.quietEnv quietReport
      (marks [(setThenGet.map Request.bytes).flatten])).served.map Served.reply =
        [ascii "errno=0\n\n"] := by
    decide +kernel
  have hboth : ((newDevice () : Device Unit Unit).ipcHandle Device.quietEnv quietReport
      (marks (setThenGet.map Request.bytes))).served.length = 2 := by
    decide +kernel
  refine ⟨hlost, hboth, fun heq => ?_⟩
  rw [heq] at hlost
  have hlen := congrArg length hlost
  rw [length_map, hboth] at hlen
  exact absurd hlen (by decide)

end AmneziaWG.Device
