import CppMisc.Library.Base64
import CppMisc.EpollWebsocket.Accesses

/-!
# Which key `handshark` hashes, and what it answers

`handshark` looks for the text `Sec-WebSocket-Key` anywhere in a line and takes what stands from the 20th
byte of that line on for the key. That is the key of the request when the first line with the text is the
header with the key, which starts with the text, a colon and a space; any line before it that mentions the
text is taken for it (`handshark_uses_key_iff`).

The digest goes through `strlen` on its way to `base64_encode`, so only the bytes in front of its first zero
byte are encoded. If there are none, the end of the string is written in front of `sec_accept`
(`accept_complete_iff`).
-/

set_option autoImplicit false

namespace CppMisc.EpollWebsocket

open CppMisc.Library

/-! ## What a request makes the loop do -/

/-- The accesses of `readline`, `strcat` and the loop test. -/
def Access.isScan : Access → Bool
  | .recvbuffer _ => true
  | .linebuf _ => true
  | .sha1 _ => false
  | .secAccept _ => false

/-- The argument of `SHA1`. -/
def Access.hashed : Access → Option (List UInt8)
  | .sha1 d => some d
  | _ => none

/-- The index written to `sec_accept`. -/
def Access.acceptWrite : Access → Option Int
  | .secAccept i => some i
  | _ => none

theorem filterMap_append_of_scan {α : Type} {f : Access → Option α} (hf : ∀ a, a.isScan → f a = none)
    {front : List Access} (h : ∀ a ∈ front, a.isScan) (rest : List Access) :
    (front ++ rest).filterMap f = rest.filterMap f := by
  rw [List.filterMap_append, List.filterMap_eq_nil_iff.2 fun a ha => hf a (h a ha), List.nil_append]

theorem Access.hashed_of_isScan (a : Access) (h : a.isScan) : a.hashed = none := by
  cases a with
  | recvbuffer i => rfl
  | linebuf i => rfl
  | sha1 d => cases h
  | secAccept i => rfl

theorem Access.acceptWrite_of_isScan (a : Access) (h : a.isScan) : a.acceptWrite = none := by
  cases a with
  | recvbuffer i => rfl
  | linebuf i => rfl
  | sha1 d => rfl
  | secAccept i => cases h

theorem isScan_lineEndAccesses (m : Memory) (level : Nat) : ∀ a ∈ lineEndAccesses m level, a.isScan := by
  intro a ha
  unfold lineEndAccesses at ha
  split at ha
  · rcases List.mem_pair.1 ha with rfl | rfl <;> rfl
  · rw [List.mem_singleton.1 ha]
    rfl

theorem isScan_readlineLoopAccesses (m : Memory) (n : Nat) :
    ∀ level i, ∀ a ∈ readlineLoopAccesses m n level i, a.isScan := by
  induction n with
  | zero =>
      intro level i a ha
      cases ha
  | succ n ih =>
      intro level i a ha
      rw [readlineLoopAccesses] at ha
      split at ha
      · exact isScan_lineEndAccesses m level a ha
      · rcases List.mem_append.1 ha with ha | ha
        · exact isScan_lineEndAccesses m level a ha
        · rcases List.mem_cons.1 ha with rfl | ha
          · rfl
          · exact ih (level + 1) (i + 1) a ha

theorem isScan_readlineAccesses (m : Memory) (level : Nat) :
    ∀ a ∈ readlineAccesses m level, a.isScan := by
  intro a ha
  rw [readlineAccesses, List.mem_append, List.mem_append, List.mem_map, List.mem_map] at ha
  rcases ha with ⟨i, -, rfl⟩ | ⟨i, -, rfl⟩ | ha
  · rfl
  · rfl
  · exact isScan_readlineLoopAccesses m _ level 0 a ha

theorem isScan_strcatAccesses (n : Nat) : ∀ a ∈ strcatAccesses n, a.isScan := by
  intro a ha
  obtain ⟨i, -, rfl⟩ := List.mem_map.1 ha
  rfl

/-- The loop reads the lines before the first one with the name, and then answers that one. -/
theorem tracedLoop_lines (lib : OpenSsl) (beyond : List UInt8) (si : Sockitem) (k : Line)
    (hk : keyName <:+: k.bytes) (hroom : k.bytes.length + guid.length < 256) (post : List UInt8)
    (before : List Line) :
    ∀ (rounds p : Nat), before.length < rounds → (∀ a < p, text si a ≠ 0) →
      (text si).Holds p (lines (before ++ [k]) ++ post) →
      p + (lines (before ++ [k])).length ≤ 2 * bufferLength →
      (∀ l ∈ before, l.bytes.length < 256 ∧ ¬ keyName <:+: l.bytes) →
        ∃ front, (∀ a ∈ front, a.isScan) ∧
          (tracedLoop lib beyond si rounds p).1 = front ++ answerAccesses lib k.bytes := by
  induction before with
  | nil =>
      intro rounds p hrounds hnul hold hfit _
      obtain ⟨rounds, rfl⟩ : ∃ n, rounds = n + 1 := ⟨rounds - 1, by simp at hrounds; omega⟩
      have hline := readline_last k post hnul hold hfit
      have hshort : k.bytes.length < 256 := by omega
      refine ⟨readlineAccesses (text si) p ++ strcatAccesses k.bytes.length, ?_, ?_⟩
      · intro a ha
        rcases List.mem_append.1 ha with ha | ha
        · exact isScan_readlineAccesses _ _ a ha
        · exact isScan_strcatAccesses _ a ha
      · simp only [tracedLoop, hline, lineText_of_lt hshort, hk, if_true]
        rw [if_neg (by omega), if_neg (by omega)]
  | cons l before ih =>
      intro rounds p hrounds hnul hold hfit hall
      obtain ⟨rounds, rfl⟩ : ∃ n, rounds = n + 1 := ⟨rounds - 1, by simp at hrounds; omega⟩
      obtain ⟨hshort, hother⟩ := hall l List.mem_cons_self
      have hpass := passes_line l k before post hnul hold hfit
      rw [length_lines_cons] at hfit
      obtain ⟨front, hscan, htrace⟩ := ih rounds (p + l.bytes.length + 2) (by simp at hrounds; omega)
        hpass.string hpass.next (by omega) fun l' hl' => hall l' (List.mem_cons_of_mem l hl')
      refine ⟨readlineAccesses (text si) p ++
        lineEndAccesses (text si) (p + l.bytes.length + 2) ++ front, ?_, ?_⟩
      · intro a ha
        rcases List.mem_append.1 ha with ha | ha
        · rcases List.mem_append.1 ha with ha | ha
          · exact isScan_readlineAccesses _ _ a ha
          · exact isScan_lineEndAccesses _ _ a ha
        · exact hscan a ha
      · simp only [tracedLoop, hpass.read, lineText_of_lt hshort, hother, if_false]
        rw [if_neg (by omega), if_neg fun hstop => hpass.goesOn hstop.1, htrace]
        simp only [List.append_assoc]

/-- What was received starts with lines, and `k` is the first one with the name. -/
structure FirstNamed (chunk : List UInt8) (k : Line) : Prop where
  fits : chunk.length ≤ bufferLength
  room : k.bytes.length + guid.length < 256
  named : keyName <:+: k.bytes
  split : ∃ before post, chunk = lines (before ++ [k]) ++ post ∧
    ∀ l ∈ before, l.bytes.length < 256 ∧ ¬ keyName <:+: l.bytes

/-- The call of `handshark` on such a chunk: its result and its accesses. -/
theorem FirstNamed.handshark {chunk : List UInt8} {k : Line} (h : FirstNamed chunk k) (lib : OpenSsl)
    (beyond : List UInt8) (si : Sockitem) :
    handshark lib (received si chunk) = (answerKey lib k.bytes).map (switchProtocols (received si chunk)) ∧
      ∃ front, (∀ a ∈ front, a.isScan) ∧
        accesses lib beyond (received si chunk) = front ++ answerAccesses lib k.bytes := by
  obtain ⟨before, post, hchunk, hall⟩ := h.split
  have hold := holds_received si h.fits
  rw [hchunk] at hold
  have hlines : (lines (before ++ [k])).length ≤ bufferLength := by
    have hfits := h.fits
    rw [hchunk, List.length_append] at hfits
    omega
  have hrounds : before.length < bufferLength + 2 := by
    have hle := length_le_lines (before ++ [k])
    rw [List.length_append, List.length_singleton] at hle
    omega
  have hnul : ∀ a < 0, text (received si chunk) a ≠ 0 := fun a ha => absurd ha (Nat.not_lt_zero a)
  rw [← hchunk] at hold
  constructor
  · exact handsharkLoop_lines lib _ k h.named h.room post before _ 0 hrounds hnul
      (by rw [← hchunk]; exact hold) (by omega) hall
  · exact tracedLoop_lines lib beyond _ k h.named h.room post before _ 0 hrounds hnul
      (by rw [← hchunk]; exact hold) (by omega) hall

/-- The only argument of `SHA1` is taken from that line. -/
theorem FirstNamed.hashed {chunk : List UInt8} {k : Line} (h : FirstNamed chunk k) (lib : OpenSsl)
    (beyond : List UInt8) (si : Sockitem) :
    (accesses lib beyond (received si chunk)).filterMap Access.hashed = [(k.bytes ++ guid).drop 19] := by
  obtain ⟨front, hscan, htrace⟩ := (h.handshark lib beyond si).2
  rw [htrace, filterMap_append_of_scan Access.hashed_of_isScan hscan, answerAccesses]
  simp [base64EncodeAccesses, Access.hashed]

/-- The indices written to `sec_accept`, for the text that `base64_encode` finds. -/
theorem FirstNamed.acceptWrites {chunk : List UInt8} {k : Line} (h : FirstNamed chunk k) (lib : OpenSsl)
    (beyond : List UInt8) (si : Sockitem) {out : List UInt8}
    (hout : lib.base64 (cString (lib.sha1 ((k.bytes ++ guid).drop 19))) = out) :
    (accesses lib beyond (received si chunk)).filterMap Access.acceptWrite =
      (List.range out.length).map Nat.cast ++ [(out.length : Int) - 1] := by
  obtain ⟨front, hscan, htrace⟩ := (h.handshark lib beyond si).2
  rw [htrace, filterMap_append_of_scan Access.acceptWrite_of_isScan hscan, answerAccesses,
    base64EncodeAccesses, hout, List.filterMap_cons_none rfl, List.filterMap_append, List.filterMap_map]
  exact congrArg (· ++ [(out.length : Int) - 1]) (congrFun List.filterMap_eq_map _)

/-! ## Which key is hashed -/

/-- A header of a request. -/
structure Header where
  name : List UInt8
  value : List UInt8
  noNul : 0 ∉ name ++ value
  noCr : 13 ∉ name ++ value
  noColon : 58 ∉ name

/-- The header as a line. -/
def Header.line (h : Header) : Line where
  bytes := h.name ++ (ascii ": " ++ h.value)
  noNul := by
    have hno := h.noNul
    rw [List.mem_append, not_or] at hno
    rw [List.mem_append, List.mem_append, not_or, not_or]
    exact ⟨hno.1, by decide, hno.2⟩
  noCr := by
    have hno := h.noCr
    rw [List.mem_append, not_or] at hno
    rw [List.mem_append, List.mem_append, not_or, not_or]
    exact ⟨hno.1, by decide, hno.2⟩
  filled := by
    intro hnil
    rw [List.append_eq_nil_iff, List.append_eq_nil_iff] at hnil
    exact absurd hnil.2.1 (by decide)

/-- An opening request of HTTP: a request line and headers, one of which has the key. -/
structure Opening where
  requestLine : Line
  before : List Header
  key : List UInt8
  after : List Header
  keyNoNul : 0 ∉ key
  keyNoCr : 13 ∉ key
  single : ∀ h ∈ before ++ after, h.name ≠ keyName

/-- The header with the key. -/
def Opening.keyHeader (o : Opening) : Header where
  name := keyName
  value := o.key
  noNul := by
    rw [List.mem_append, not_or]
    exact ⟨by decide, o.keyNoNul⟩
  noCr := by
    rw [List.mem_append, not_or]
    exact ⟨by decide, o.keyNoCr⟩
  noColon := by decide

/-- The lines of an opening request. -/
def Opening.lines (o : Opening) : List Line :=
  o.requestLine :: (o.before ++ o.keyHeader :: o.after).map Header.line

/-- The bytes of an opening request. -/
def Opening.bytes (o : Opening) : List UInt8 := EpollWebsocket.lines o.lines ++ crlf

/-- The first line that has the name of the key anywhere in it. -/
def Opening.firstNamed (o : Opening) : Option Line := o.lines.find? fun l => keyName <:+: l.bytes

/-- The request fits the arrays. -/
structure Opening.Fits (o : Opening) : Prop where
  total : o.bytes.length < bufferLength
  lines : ∀ l ∈ o.lines, l.bytes.length ≤ 219

/-- `handshark` hashes the key and `GUID` and nothing else, and the connection goes over to frames with the
answer to be sent. -/
structure UsesKey (lib : OpenSsl) (beyond : List UInt8) (si : Sockitem) (key : List UInt8) : Prop where
  hashed : (accesses lib beyond si).filterMap Access.hashed = [key ++ guid]
  moved : ∃ si', handshark lib si = some si' ∧ si'.status = .dataTransform ∧ si'.callback = .sendCb

theorem Opening.firstNamed_spec {o : Opening} (hfit : o.Fits) :
    ∃ k, o.firstNamed = some k ∧ FirstNamed o.bytes k := by
  have hmem : o.keyHeader.line ∈ o.lines := by
    apply List.mem_cons_of_mem
    exact List.mem_map_of_mem (List.mem_append_right _ List.mem_cons_self)
  have hname : keyName <:+: o.keyHeader.line.bytes := (List.prefix_append keyName _).isInfix
  have hsome : o.firstNamed.isSome := by
    rw [Opening.firstNamed, List.find?_isSome]
    exact ⟨_, hmem, decide_eq_true hname⟩
  obtain ⟨k, hk⟩ := Option.isSome_iff_exists.1 hsome
  -- the line found, with the lines before it, none of which has the name
  obtain ⟨hnamed, before, after, hsplit, hother⟩ := List.find?_eq_some_iff_append.1 hk
  have hshort : ∀ l ∈ o.lines, l.bytes.length ≤ 219 := hfit.lines
  rw [hsplit] at hshort
  have hguid : guid.length = 36 := by decide
  refine ⟨k, hk, hfit.total.le, ?_, of_decide_eq_true hnamed, before, EpollWebsocket.lines after ++ crlf,
    ?_, ?_⟩
  · have hle := hshort k (by simp)
    omega
  · simp [Opening.bytes, hsplit, EpollWebsocket.lines]
  · intro l hl
    have hle := hshort l (List.mem_append_left _ hl)
    exact ⟨by omega, by simpa using hother l hl⟩

/-- What is hashed is the key exactly when 19 bytes stand before it and nothing behind it. -/
theorem hashed_eq_iff {line key : List UInt8} (h : keyName <:+: line) :
    (line ++ guid).drop 19 = key ++ guid ↔ ∃ mark, mark.length = 19 ∧ line = mark ++ key := by
  have hname : 17 ≤ line.length := h.length_le
  have hguid : guid.length = 36 := by decide
  constructor
  · intro heq
    have hlen := congrArg List.length heq
    rw [List.length_drop, List.length_append, List.length_append] at hlen
    rw [List.drop_append_of_le_length (by omega)] at heq
    have hkey := List.append_cancel_right heq
    exact ⟨line.take 19, by rw [List.length_take]; omega, by rw [← hkey, List.take_append_drop]⟩
  · rintro ⟨mark, hmark, rfl⟩
    rw [List.append_assoc, ← hmark, List.drop_left]

theorem base64Encode_short {lib : OpenSsl} {d : List UInt8} (hne : d ≠ []) (hle : d.length ≤ 20) :
    base64Encode lib d = some (lib.base64 d).dropLast := by
  have hlen := lib.base64_length d hne (by omega)
  rw [base64Encode, if_neg]
  rintro (hnil | hlong)
  · rw [hnil] at hlen
    cases hlen
  · omega

theorem length_cString_le (bs : List UInt8) : (cString bs).length ≤ bs.length :=
  (List.takeWhile_prefix _).length_le

theorem cString_eq_nil_iff (bs : List UInt8) : cString bs = [] ↔ bs = [] ∨ bs.head? = some 0 := by
  cases bs with
  | nil => simp [cString]
  | cons b bs => simp [cString, List.takeWhile_cons]

/-- There is an answer exactly when some byte of the digest is encoded. -/
theorem isSome_answerKey_iff {lib : OpenSsl} (hempty : lib.base64 [] = []) (line : List UInt8) :
    (answerKey lib line).isSome ↔ (lib.sha1 ((line ++ guid).drop 19)).head? ≠ some 0 := by
  have hsha := lib.sha1_length ((line ++ guid).drop 19)
  rw [answerKey, Option.isSome_map]
  constructor
  · intro h hzero
    have hnil := (cString_eq_nil_iff _).2 (.inr hzero)
    rw [hnil, base64Encode, hempty] at h
    simp at h
  · intro h
    have hne : cString (lib.sha1 ((line ++ guid).drop 19)) ≠ [] := by
      intro hnil
      rcases (cString_eq_nil_iff _).1 hnil with hnil | hzero
      · rw [hnil] at hsha
        cases hsha
      · exact h hzero
    rw [base64Encode_short hne (by have hle := length_cString_le (lib.sha1 ((line ++ guid).drop 19)); omega)]
    rfl

/-- **Which key is hashed.** For every opening request that fits the arrays, `handshark` hashes the key of
the request followed by `GUID` and goes over to frames exactly when the first line with the text
`Sec-WebSocket-Key` has the key from its 20th byte on, as the header with the key does, and the digest of the
key does not begin with a zero byte. A line in front of that header that mentions the text, in a name or in a
value, is taken for it. -/
theorem handshark_uses_key_iff (lib : OpenSsl) (hempty : lib.base64 [] = []) (beyond : List UInt8)
    (si : Sockitem) (o : Opening) (hfit : o.Fits) :
    UsesKey lib beyond (received si o.bytes) o.key ↔
      (∃ k mark, o.firstNamed = some k ∧ mark.length = 19 ∧ k.bytes = mark ++ o.key) ∧
        (lib.sha1 (o.key ++ guid)).head? ≠ some 0 := by
  obtain ⟨k, hfound, hfirst⟩ := o.firstNamed_spec hfit
  have hcall := (hfirst.handshark lib beyond si).1
  have hhash := hfirst.hashed lib beyond si
  constructor
  · rintro ⟨hhashed, si', hdone, -, -⟩
    -- the one argument of `SHA1` fixes the line, and that the call went on fixes the digest
    rw [hhash, List.singleton_inj] at hhashed
    obtain ⟨mark, hmark, hline⟩ := (hashed_eq_iff hfirst.named).1 hhashed
    refine ⟨⟨k, mark, hfound, hmark, hline⟩, ?_⟩
    rw [← hhashed]
    apply (isSome_answerKey_iff hempty k.bytes).1
    rw [hcall] at hdone
    obtain ⟨head, hanswer, -⟩ := Option.map_eq_some_iff.1 hdone
    rw [hanswer]
    rfl
  · rintro ⟨⟨k', mark, hfound', hmark, hline⟩, hdigest⟩
    obtain rfl : k = k' := Option.some.inj (hfound.symm.trans hfound')
    have hhashed := (hashed_eq_iff hfirst.named).2 ⟨mark, hmark, hline⟩
    refine ⟨by rw [hhash, hhashed], ?_⟩
    rw [← hhashed] at hdigest
    obtain ⟨head, hanswer⟩ := Option.isSome_iff_exists.1 ((isSome_answerKey_iff hempty k.bytes).2 hdigest)
    refine ⟨switchProtocols (received si o.bytes) head, ?_, rfl, rfl⟩
    rw [hcall, hanswer, Option.map_some]

/-- An OpenSSL whose SHA-1 gives `digest`. -/
def sslOf (digest : List UInt8) (h : digest.length = 20) : OpenSsl where
  sha1 _ := digest
  base64 d := if d = [] then [] else Base64.encode d ++ [10]
  sha1_length _ := h
  base64_length d hne _ := by
    rw [if_neg hne, List.length_append, Base64.length_encode]
    rfl
  base64_text d := by
    split
    · simp
    · simp [Base64.zero_notMem_encode d]

/-- A short request with the key of RFC 6455, with another header in front of the one with the key. -/
def openingAfter (h : Header) (hname : h.name ≠ keyName) : Opening where
  requestLine := ⟨ascii "GET / HTTP/1.1", by decide, by decide, by decide⟩
  before := [h]
  key := ascii "dGhlIHNhbXBsZSBub25jZQ=="
  after := []
  keyNoNul := sampleRequest.keyNoNul
  keyNoCr := sampleRequest.keyNoCr
  single := by
    intro h' hmem
    rw [List.append_nil, List.mem_singleton] at hmem
    rw [hmem]
    exact hname

/-- The header `Upgrade: websocket`. -/
def upgradeHeader : Header :=
  ⟨ascii "Upgrade", ascii "websocket", by decide, by decide, by decide⟩

/-- A header of an older draft of the protocol. -/
def key1Header : Header :=
  ⟨ascii "Sec-WebSocket-Key1", ascii "18x 6]8vM;54 *(5:  U1]8  z [  8", by decide, by decide, by decide⟩

theorem handshark_uses_key_upgradeFirst :
    UsesKey (sslOf sampleDigest rfl) [] (received freshHeap (openingAfter upgradeHeader (by decide)).bytes)
      (ascii "dGhlIHNhbXBsZSBub25jZQ==") := by
  have hfit : (openingAfter upgradeHeader (by decide)).Fits := ⟨by decide, by decide⟩
  refine (handshark_uses_key_iff (sslOf sampleDigest rfl) rfl [] freshHeap
    (openingAfter upgradeHeader (by decide)) hfit).2
    ⟨⟨(openingAfter upgradeHeader (by decide)).keyHeader.line, keyHeader, ?_, by decide, by decide⟩, by decide⟩
  rw [Opening.firstNamed, List.find?_eq_some_iff_append]
  exact ⟨by decide, [(openingAfter upgradeHeader (by decide)).requestLine, upgradeHeader.line], [], rfl,
    by decide⟩

/-- Control: the header `Sec-WebSocket-Key1` in front of the key is taken for it. -/
theorem handshark_hashes_key1 :
    ¬ ∀ (lib : OpenSsl), lib.base64 [] = [] → ∀ (beyond : List UInt8) (si : Sockitem) (o : Opening),
      o.Fits → UsesKey lib beyond (received si o.bytes) o.key := by
  intro h
  have hfit : (openingAfter key1Header (by decide)).Fits := ⟨by decide +kernel, by decide +kernel⟩
  have huses := h (sslOf sampleDigest rfl) rfl [] freshHeap (openingAfter key1Header (by decide)) hfit
  have hfirst : FirstNamed (openingAfter key1Header (by decide)).bytes key1Header.line :=
    ⟨hfit.total.le, by decide, by decide, [(openingAfter key1Header (by decide)).requestLine],
      EpollWebsocket.lines [(openingAfter key1Header (by decide)).keyHeader.line] ++ crlf, rfl, by decide⟩
  have hhash := hfirst.hashed (sslOf sampleDigest rfl) [] freshHeap
  rw [huses.hashed] at hhash
  exact absurd (congrArg (List.map List.length) hhash) (by decide)

/-! ## The answer to the key -/

/-- What `BIO_f_base64` writes for up to 48 bytes: the base64 text and a line break, and nothing for no bytes
at all. -/
structure OpenSsl.Encodes (lib : OpenSsl) : Prop where
  encode : ∀ d, d ≠ [] → d.length ≤ 48 → lib.base64 d = Base64.encode d ++ [10]
  empty : lib.base64 [] = []

/-- The response has the base64 text of the whole digest, and nothing was written outside `sec_accept`. -/
structure AcceptComplete (lib : OpenSsl) (beyond : List UInt8) (si : Sockitem) (key : List UInt8) :
    Prop where
  written : ∃ si', handshark lib si = some si' ∧
    si'.sendbuffer.load 0 si'.slength = response (Base64.encode (lib.sha1 (key ++ guid)))
  length : (Base64.encode (lib.sha1 (key ++ guid))).length = 28
  inside : ∀ i ∈ (accesses lib beyond si).filterMap Access.acceptWrite, 0 ≤ i ∧ i < 32

theorem Request.Readable.firstNamed {r : Request} (hr : r.Readable) (hfit : r.bytes.length ≤ bufferLength) :
    FirstNamed r.bytes r.keyLine := by
  refine ⟨hfit, ?_, ?_, r.before, lines r.after ++ crlf, rfl, fun l hl => ⟨hr.short l hl, hr.other l hl⟩⟩
  · rw [Request.keyLine, List.length_append]
    exact hr.key
  · refine List.IsInfix.trans ?_ (List.prefix_append keyHeader r.key).isInfix
    decide

theorem Request.drop_keyLine (r : Request) : (r.keyLine.bytes ++ guid).drop 19 = r.key ++ guid := by
  rw [Request.keyLine, List.append_assoc]
  exact List.drop_left' (by decide)

/-- The answer to a key whose digest does not begin with a zero byte. -/
theorem answerKey_of_encodes {lib : OpenSsl} (hlib : lib.Encodes) (line : List UInt8)
    (hne : cString (lib.sha1 ((line ++ guid).drop 19)) ≠ []) :
    answerKey lib line =
      some (response (Base64.encode (cString (lib.sha1 ((line ++ guid).drop 19))))) := by
  have hle := length_cString_le (lib.sha1 ((line ++ guid).drop 19))
  have hsha := lib.sha1_length ((line ++ guid).drop 19)
  rw [answerKey, base64Encode_short hne (by omega), hlib.encode _ hne (by omega), List.dropLast_concat,
    Option.map_some, cString_of_noNul (Base64.zero_notMem_encode _)]

theorem response_injective {a b : List UInt8} (h : response a = response b) : a = b := by
  rw [response, response] at h
  exact List.append_cancel_left (List.append_cancel_right h)

theorem noNul_of_length_cString {bs : List UInt8} (h : (cString bs).length = bs.length) : 0 ∉ bs := by
  have hall := (List.takeWhile_prefix _).eq_of_length h
  intro hzero
  have hmem := List.takeWhile_eq_self_iff.1 hall 0 hzero
  simp at hmem

/-- **The accept token.** For every request that `handshark` can read, every SHA-1 and a base64 that does what
it should, the response has the 28 characters for all 20 bytes of the digest and `sec_accept` is not left
exactly when the digest has no zero byte. -/
theorem accept_complete_iff (lib : OpenSsl) (hlib : lib.Encodes) (beyond : List UInt8) (si : Sockitem)
    (r : Request) (hr : r.Readable) (hfit : r.bytes.length ≤ bufferLength) :
    AcceptComplete lib beyond (received si r.bytes) r.key ↔ 0 ∉ lib.sha1 (r.key ++ guid) := by
  have hfirst := hr.firstNamed hfit
  have hcall := (hfirst.handshark lib beyond si).1
  have hwrites := hfirst.acceptWrites lib beyond si rfl
  have hsha := lib.sha1_length (r.key ++ guid)
  rw [r.drop_keyLine] at hwrites
  constructor
  · rintro ⟨⟨si', hdone, hsent⟩, hlen, hinside⟩
    have hne : cString (lib.sha1 (r.key ++ guid)) ≠ [] := by
      intro hnil
      -- the end of an empty string goes to `sec_accept[-1]`
      rw [hnil, hlib.empty] at hwrites
      have hout := hinside (-1) (by rw [hwrites]; decide)
      omega
    have hanswer := answerKey_of_encodes hlib r.keyLine.bytes (by rw [r.drop_keyLine]; exact hne)
    rw [hcall, hanswer, r.drop_keyLine, Option.map_some, Option.some.injEq] at hdone
    rw [← hdone] at hsent
    -- the text sent is that of the digest up to its first zero byte
    have hload : response (Base64.encode (cString (lib.sha1 (r.key ++ guid)))) =
        response (Base64.encode (lib.sha1 (r.key ++ guid))) := by
      rw [← hsent, switchProtocols, Memory.load_store]
    exact noNul_of_length_cString (Base64.length_eq_of_encode_eq (response_injective hload))
  · intro hzero
    have hwhole := cString_of_noNul hzero
    have hne : lib.sha1 (r.key ++ guid) ≠ [] := List.ne_nil_of_length_eq_add_one hsha
    have hlen : (Base64.encode (lib.sha1 (r.key ++ guid))).length = 28 := by
      rw [Base64.length_encode, hsha]
    have hanswer := answerKey_of_encodes hlib r.keyLine.bytes
      (by rw [r.drop_keyLine, hwhole]; exact hne)
    rw [r.drop_keyLine, hwhole] at hanswer
    refine ⟨⟨switchProtocols (received si r.bytes) (response (Base64.encode (lib.sha1 (r.key ++ guid)))),
      by rw [hcall, hanswer, Option.map_some], by rw [switchProtocols, Memory.load_store]⟩, hlen, ?_⟩
    rw [hwrites, hwhole, hlib.encode _ hne (by omega), List.length_append, hlen]
    decide

theorem sslOf_encodes (digest : List UInt8) (h : digest.length = 20) : (sslOf digest h).Encodes where
  encode _ hne _ := if_neg hne
  empty := rfl

theorem accept_complete_sample :
    AcceptComplete (sslOf sampleDigest rfl) [] (received freshHeap sampleRequest.bytes)
        (ascii "dGhlIHNhbXBsZSBub25jZQ==") ∧
      Base64.encode sampleDigest = ascii "s3pPLMBiTxaQ9kYGzzhZRbK+xOo=" :=
  ⟨(accept_complete_iff (sslOf sampleDigest rfl) (sslOf_encodes _ rfl) [] freshHeap sampleRequest
    sampleRequest_readable (by decide)).2 (by decide), by decide⟩

/-- The SHA-1 of the key `AAAAAAAAAAAAAAAAAAAADg==` and `GUID`, which ends in a zero byte. -/
def zeroDigest : List UInt8 :=
  [0xda, 0x14, 0x0d, 0x7b, 0x60, 0x3a, 0x6a, 0x99, 0x8d, 0xfe, 0xf7, 0xba, 0xc5, 0x3b, 0x12, 0x13, 0x16,
    0xa3, 0x67, 0x00]

/-- A request with that key. -/
def zeroRequest : Request :=
  { sampleRequest with
    key := ascii "AAAAAAAAAAAAAAAAAAAADg=="
    keyNoNul := by decide
    keyNoCr := by decide }

/-- Control: the last byte of this digest is not encoded. -/
theorem accept_incomplete_zeroDigest :
    ¬ ∀ (lib : OpenSsl), lib.Encodes → ∀ (beyond : List UInt8) (si : Sockitem) (r : Request),
      r.Readable → r.bytes.length ≤ bufferLength →
        AcceptComplete lib beyond (received si r.bytes) r.key := by
  intro h
  have hr : zeroRequest.Readable := ⟨by decide, by decide, by decide⟩
  obtain ⟨si', hdone, hsent⟩ := (h (sslOf zeroDigest rfl) (sslOf_encodes _ rfl) [] freshHeap zeroRequest hr
    (by decide)).written
  have hcall := ((hr.firstNamed (by decide)).handshark (sslOf zeroDigest rfl) [] freshHeap).1
  have hanswer := answerKey_of_encodes (sslOf_encodes zeroDigest rfl) zeroRequest.keyLine.bytes (by decide)
  rw [hcall, hanswer, Option.map_some, Option.some.injEq] at hdone
  rw [← hdone, switchProtocols, Memory.load_store] at hsent
  exact absurd (response_injective hsent) (by decide)

end CppMisc.EpollWebsocket
