import Mathlib.Data.List.TakeWhile
import CppMisc.EpollWebsocket.Model

/-!
# TCP segmentation and `websocket/epoll_websocket.c`

A client sends an opening request and then masked text frames. TCP delivers the same bytes in pieces of any
size. What should come back does not depend on the pieces: the 101 response and one unmasked text frame
for each frame of the client (`expected`).

The server takes what one call of `recv` returns for one message. No stream is answered alike for all
cuts: cut into single bytes it is not answered at all (`sent_singleBytes`). Among the cuts that go between
messages, the answer is the expected one exactly when every piece is one message and every payload fits the
short length field; the messages behind the first one of a piece are lost.
-/

set_option autoImplicit false

namespace CppMisc.EpollWebsocket

open CppMisc.Library

/-! ## The conversation -/

/-- The end of a line. -/
def crlf : List UInt8 := [13, 10]

/-- A line of a request, without its end. -/
structure Line where
  bytes : List UInt8
  noNul : 0 ∉ bytes
  noCr : 13 ∉ bytes
  filled : bytes ≠ []

/-- Lines with their ends. -/
def lines (ls : List Line) : List UInt8 := ls.flatMap fun l => l.bytes ++ crlf

/-- The field name of the key as this server expects it, with the space behind the colon. -/
def keyHeader : List UInt8 := ascii "Sec-WebSocket-Key: "

/-- An opening request: the lines before the key, the key, and the lines behind it. -/
structure Request where
  before : List Line
  key : List UInt8
  after : List Line
  keyNoNul : 0 ∉ key
  keyNoCr : 13 ∉ key

/-- The line with the key. -/
def Request.keyLine (r : Request) : Line where
  bytes := keyHeader ++ r.key
  noNul := by
    rw [List.mem_append, not_or]
    exact ⟨by decide, r.keyNoNul⟩
  noCr := by
    rw [List.mem_append, not_or]
    exact ⟨by decide, r.keyNoCr⟩
  filled := by
    rw [Ne, List.append_eq_nil_iff, not_and_or]
    exact .inl (by decide)

/-- The bytes of a request. -/
def Request.bytes (r : Request) : List UInt8 :=
  lines (r.before ++ [r.keyLine]) ++ (lines r.after ++ crlf)

/-- A text frame of the client. -/
structure Frame where
  key : Key
  payload : List UInt8

/-- The bytes of a frame. -/
def Frame.bytes (f : Frame) : List UInt8 := maskedFrame true 1 f.key f.payload

/-- The length field of a frame without a mask. -/
def plainLength (n : Nat) : List UInt8 :=
  if n < 126 then [UInt8.ofNat n]
  else if n < 65536 then 126 :: (hostBytes n 2).reverse
  else 127 :: (hostBytes n 8).reverse

/-- The unmasked text frame of RFC 6455 with the same payload. -/
def Frame.reply (f : Frame) : List UInt8 := 129 :: plainLength f.payload.length ++ f.payload

/-- The value of `Sec-WebSocket-Accept`: the line break of the base64 text is not part of it. -/
def secAccept (lib : OpenSsl) (key : List UInt8) : List UInt8 :=
  (lib.base64 (lib.sha1 (key ++ guid))).dropLast

/-- What the server should send. -/
def expected (lib : OpenSsl) (key : List UInt8) (frames : List Frame) : List UInt8 :=
  response (secAccept lib key) ++ frames.flatMap Frame.reply

/-- Every cut of the stream into pieces that `recv` can return gets the answer `out`, whatever the memory
holds that `accept_cb` has been given. -/
def Independent (lib : OpenSsl) (stream out : List UInt8) : Prop :=
  ∀ (heap : Sockitem) (chunks : List (List UInt8)), chunks.flatten = stream →
    (∀ c ∈ chunks, 1 ≤ c.length ∧ c.length ≤ bufferLength) →
      sent lib (.alive (acceptCb heap)) chunks = some out

/-- A request that fits the arrays of `handshark`, with the name of the key in the line of the key only. -/
structure Request.Readable (r : Request) : Prop where
  short : ∀ l ∈ r.before, l.bytes.length < 256
  other : ∀ l ∈ r.before, ¬ keyName <:+: l.bytes
  key : keyHeader.length + r.key.length + guid.length < 256

/-- The pieces of a cut between messages: `first` are the frames that come with the request, and each later
piece is one or more frames. -/
def pieces (r : Request) (first : List Frame) (later : List (Frame × List Frame)) :
    List (List UInt8) :=
  (r.bytes ++ first.flatMap Frame.bytes) :: later.map fun g => g.1.bytes ++ g.2.flatMap Frame.bytes

/-- The frames of such a cut. -/
def framesOf (first : List Frame) (later : List (Frame × List Frame)) : List Frame :=
  first ++ later.flatMap fun g => g.1 :: g.2

/-! ## The handshake -/

section Handshake

variable {m : Memory} {p : Nat}

theorem readlineLoop_line {line : List UInt8} (hcr : 13 ∉ line) : ∀ {level n : Nat},
    line.length < n → m.Holds level (line ++ crlf) →
      readlineLoop m n level = (some (level + line.length + 2), line) := by
  induction line with
  | nil =>
      intro level n hn h
      obtain ⟨n, rfl⟩ : ∃ k, n = k + 1 := ⟨n - 1, by simp at hn; omega⟩
      have h₀ : m level = 13 := h 0 (by decide)
      have h₁ : m (level + 1) = 10 := h 1 (by decide)
      simp [readlineLoop, h₀, h₁]
  | cons b line ih =>
      intro level n hn h
      rw [List.length_cons] at hn
      obtain ⟨n, rfl⟩ : ∃ k, n = k + 1 := ⟨n - 1, by omega⟩
      obtain ⟨hb, hrest⟩ := Memory.holds_cons_iff.1 h
      have hne : b ≠ 13 := fun he => hcr (by simp [he])
      rw [readlineLoop, if_neg fun hend => hne (hb ▸ hend.1),
        ih (fun hmem => hcr (List.mem_cons_of_mem b hmem)) (by omega) hrest]
      simp only [hb, List.length_cons, Prod.mk.injEq, Option.some.injEq, and_true]
      omega

/-- A line and its end are a string. -/
theorem Line.holds_ne_zero (l : Line) (h : m.Holds p (l.bytes ++ crlf)) {i : Nat}
    (hi : i < (l.bytes ++ crlf).length) : m (p + i) ≠ 0 := by
  rw [h i hi]
  intro hz
  have hmem : (0 : UInt8) ∈ l.bytes ++ crlf := hz ▸ List.getElem_mem hi
  rcases List.mem_append.1 hmem with hmem | hmem
  · exact l.noNul hmem
  · simp [crlf] at hmem

/-- `readline` at the start of a line returns that line and the start of the next one. -/
theorem readline_line (l : Line) (hnul : ∀ a < p, m a ≠ 0) (h : m.Holds p (l.bytes ++ crlf))
    (hfit : p + l.bytes.length < 2 * bufferLength) :
    readline m p = (some (p + l.bytes.length + 2), l.bytes) := by
  have hlen : p + l.bytes.length < m.strlen 0 (2 * bufferLength + 1) := by
    refine Memory.lt_strlen (by omega) fun i hi => ?_
    rw [Nat.zero_add]
    rcases lt_or_ge i p with hlt | hge
    · exact hnul i hlt
    · -- the bytes of the line, and the carriage return behind it
      obtain ⟨k, rfl⟩ := Nat.exists_eq_add_of_le hge
      exact l.holds_ne_zero h (by simp [crlf]; omega)
  exact readlineLoop_line l.noCr (by omega) h

theorem lines_cons (l : Line) (ls : List Line) : lines (l :: ls) = l.bytes ++ crlf ++ lines ls := by
  simp [lines]

/-- A line does not start with its end. -/
theorem holds_line_ne {l : Line} {rest : List UInt8} (h : m.Holds p (l.bytes ++ rest)) : m p ≠ 13 := by
  have hpos : 0 < l.bytes.length := List.length_pos_of_ne_nil l.filled
  have hbyte := (Memory.holds_append_iff.1 h).1 0 hpos
  rw [Nat.add_zero] at hbyte
  rw [hbyte]
  intro he
  exact l.noCr (he ▸ List.getElem_mem hpos)

/-- What the loop of `handshark` meets at a line that another line follows: the line, a next line that is
not empty, and no zero byte so far. -/
structure Passes (m : Memory) (p : Nat) (l : Line) (rest : List UInt8) : Prop where
  read : readline m p = (some (p + l.bytes.length + 2), l.bytes)
  goesOn : m (p + l.bytes.length + 2) ≠ 13
  string : ∀ a < p + l.bytes.length + 2, m a ≠ 0
  next : m.Holds (p + l.bytes.length + 2) rest

theorem passes_line (l k : Line) (before : List Line) (post : List UInt8)
    (hnul : ∀ a < p, m a ≠ 0) (hold : m.Holds p (lines (l :: before ++ [k]) ++ post))
    (hfit : p + (lines (l :: before ++ [k])).length ≤ 2 * bufferLength) :
    Passes m p l (lines (before ++ [k]) ++ post) := by
  rw [List.cons_append, lines_cons, List.append_assoc] at hold
  rw [List.cons_append, lines_cons, List.length_append] at hfit
  obtain ⟨hl, hrest⟩ := Memory.holds_append_iff.1 hold
  have hend : (l.bytes ++ crlf).length = l.bytes.length + 2 := by simp [crlf]
  rw [hend, ← Nat.add_assoc] at hrest
  rw [hend] at hfit
  refine ⟨readline_line l hnul hl (by omega), ?_, ?_, hrest⟩
  · -- the next line is not empty
    cases before with
    | nil =>
        rw [List.nil_append, lines_cons, List.append_assoc, List.append_assoc] at hrest
        exact holds_line_ne hrest
    | cons l' before =>
        rw [List.cons_append, lines_cons, List.append_assoc, List.append_assoc] at hrest
        exact holds_line_ne hrest
  · intro a ha
    rcases lt_or_ge a p with hlt | hge
    · exact hnul a hlt
    · obtain ⟨i, rfl⟩ := Nat.exists_eq_add_of_le hge
      exact l.holds_ne_zero hl (by rw [hend]; omega)

/-- The last line is read in the same way, whatever follows it. -/
theorem readline_last (k : Line) (post : List UInt8) (hnul : ∀ a < p, m a ≠ 0)
    (hold : m.Holds p (lines ([] ++ [k]) ++ post))
    (hfit : p + (lines ([] ++ [k])).length ≤ 2 * bufferLength) :
    readline m p = (some (p + k.bytes.length + 2), k.bytes) := by
  simp only [List.nil_append, lines, List.flatMap_cons, List.flatMap_nil, List.append_nil] at hold hfit
  apply readline_line k hnul (Memory.holds_append_iff.1 hold).1
  simp [crlf] at hfit
  omega

theorem length_lines_cons (l k : Line) (before : List Line) :
    (lines (l :: before ++ [k])).length = l.bytes.length + 2 + (lines (before ++ [k])).length := by
  rw [List.cons_append, lines_cons, List.length_append, List.length_append]
  rfl

/-- `handshark` passes the lines before the key and answers the line with the key. -/
theorem handsharkLoop_lines (lib : OpenSsl) (si : Sockitem) (k : Line) (hk : keyName <:+: k.bytes)
    (hroom : k.bytes.length + guid.length < 256) (post : List UInt8) (before : List Line) :
    ∀ (rounds p : Nat), before.length < rounds → (∀ a < p, text si a ≠ 0) →
      (text si).Holds p (lines (before ++ [k]) ++ post) →
      p + (lines (before ++ [k])).length ≤ 2 * bufferLength →
      (∀ l ∈ before, l.bytes.length < 256 ∧ ¬ keyName <:+: l.bytes) →
        handsharkLoop lib si rounds p = (answerKey lib k.bytes).map (switchProtocols si) := by
  induction before with
  | nil =>
      intro rounds p hrounds hnul hold hfit _
      obtain ⟨rounds, rfl⟩ : ∃ n, rounds = n + 1 := ⟨rounds - 1, by simp at hrounds; omega⟩
      have hline := readline_last k post hnul hold hfit
      simp only [handsharkLoop, hline, hk, if_true]
      rw [if_neg (by omega), if_neg (by omega)]
  | cons l before ih =>
      intro rounds p hrounds hnul hold hfit hall
      obtain ⟨rounds, rfl⟩ : ∃ n, rounds = n + 1 := ⟨rounds - 1, by simp at hrounds; omega⟩
      obtain ⟨hshort, hother⟩ := hall l List.mem_cons_self
      have hpass := passes_line l k before post hnul hold hfit
      rw [length_lines_cons] at hfit
      simp only [handsharkLoop, hpass.read, hother, if_false]
      rw [if_neg (by omega), if_neg fun hstop => hpass.goesOn hstop.1]
      apply ih rounds (p + l.bytes.length + 2) (by simp at hrounds; omega) hpass.string hpass.next
        (by omega)
      exact fun l' hl' => hall l' (List.mem_cons_of_mem l hl')

end Handshake

theorem cString_of_noNul {bs : List UInt8} (h : 0 ∉ bs) : cString bs = bs := by
  refine List.takeWhile_eq_self_iff.2 fun b hb => ?_
  simpa using fun he : b = 0 => h (he ▸ hb)

/-- The answer to the key, when the digest has no zero byte. -/
theorem answerKey_keyLine (lib : OpenSsl) (r : Request) (hdigest : 0 ∉ lib.sha1 (r.key ++ guid)) :
    answerKey lib r.keyLine.bytes = some (response (secAccept lib r.key)) := by
  have hdrop : (r.keyLine.bytes ++ guid).drop 19 = r.key ++ guid := by
    rw [Request.keyLine, List.append_assoc]
    exact List.drop_left' (by decide)
  have hlen : (lib.base64 (lib.sha1 (r.key ++ guid))).length = 29 := by
    have hsha := lib.sha1_length (r.key ++ guid)
    rw [lib.base64_length _ (List.ne_nil_of_length_eq_add_one hsha) (by omega), hsha]
  have hroom : ¬ (lib.base64 (lib.sha1 (r.key ++ guid)) = [] ∨
      32 < (lib.base64 (lib.sha1 (r.key ++ guid))).length) := by
    rintro (hnil | hlong)
    · rw [hnil] at hlen
      cases hlen
    · omega
  have htext : 0 ∉ (lib.base64 (lib.sha1 (r.key ++ guid))).dropLast :=
    fun hmem => lib.base64_text _ (List.mem_of_mem_dropLast hmem)
  rw [answerKey, hdrop, cString_of_noNul hdigest, base64Encode, if_neg hroom]
  simp only [Option.map_some, cString_of_noNul htext, secAccept]

theorem text_of_lt {si : Sockitem} {a : Nat} (h : a < bufferLength) : text si a = si.recvbuffer a := by
  simp [text, h]

/-- What was received stands at the start of the buffer. -/
theorem holds_received (si : Sockitem) {chunk : List UInt8} (h : chunk.length ≤ bufferLength) :
    (text (received si chunk)).Holds 0 chunk := by
  intro i hi
  rw [text_of_lt (by omega)]
  exact Memory.holds_store si.recvbuffer 0 chunk i hi

/-- A connection that has been opened, between two pieces. -/
def Opened (si : Sockitem) : Prop := si.status = .dataTransform ∧ si.callback = .recvCb

/-- The number of lines that fit. -/
theorem length_le_lines (ls : List Line) : ls.length ≤ (lines ls).length := by
  induction ls with
  | nil => simp [lines]
  | cons l ls ih =>
      rw [lines_cons, List.length_append, List.length_cons]
      simp [crlf]
      omega

/-- A piece that starts with a readable request is answered with the 101 response. -/
theorem serve_request {lib : OpenSsl} {si : Sockitem} (hstatus : si.status = .handshark)
    {r : Request} (hr : r.Readable) (hdigest : 0 ∉ lib.sha1 (r.key ++ guid)) (more : List UInt8)
    (hfit : (r.bytes ++ more).length ≤ bufferLength) :
    ∃ si', serve lib (r.bytes ++ more) (.alive si) =
      some (.alive si', response (secAccept lib r.key)) ∧ Opened si' := by
  have hhold := holds_received si hfit
  have hsplit : r.bytes ++ more = lines (r.before ++ [r.keyLine]) ++ (lines r.after ++ crlf ++ more) := by
    rw [Request.bytes, List.append_assoc]
  have hlines : (lines (r.before ++ [r.keyLine])).length ≤ bufferLength := by
    rw [hsplit, List.length_append] at hfit
    omega
  have hrounds : r.before.length < bufferLength + 2 := by
    have hle := length_le_lines (r.before ++ [r.keyLine])
    rw [List.length_append, List.length_singleton] at hle
    omega
  have hname : keyName <:+: r.keyLine.bytes := by
    refine List.IsInfix.trans ?_ (List.prefix_append keyHeader r.key).isInfix
    decide
  have hroom : r.keyLine.bytes.length + guid.length < 256 := by
    rw [Request.keyLine, List.length_append]
    exact hr.key
  have hloop : handshark lib (received si (r.bytes ++ more)) =
      some (switchProtocols (received si (r.bytes ++ more)) (response (secAccept lib r.key))) := by
    rw [handshark, handsharkLoop_lines lib _ r.keyLine hname hroom
      (lines r.after ++ crlf ++ more) r.before (bufferLength + 2) 0 hrounds (by simp)
      (by rw [← hsplit]; exact hhold) (by omega) fun l hl => ⟨hr.short l hl, hr.other l hl⟩,
      answerKey_keyLine lib r hdigest, Option.map_some]
  refine ⟨(sendCb (switchProtocols (received si (r.bytes ++ more))
    (response (secAccept lib r.key)))).2, ?_, rfl, rfl⟩
  simp only [serve, recvCb, hstatus, hloop, Option.map_some, switchProtocols, sendCb,
    Memory.load_store]

/-! ## The frames -/

/-- The payload fits the short length field. -/
def Frame.Short (f : Frame) : Prop := f.payload.length < 126

theorem Frame.length_reply (f : Frame) :
    f.reply.length = 1 + (plainLength f.payload.length).length + f.payload.length := by
  simp [Frame.reply]
  omega

theorem Frame.reply_of_short {f : Frame} (h : f.Short) :
    f.reply = [129, UInt8.ofNat f.payload.length] ++ f.payload := by
  have hlt : f.payload.length < 126 := h
  simp [Frame.reply, plainLength, hlt]

/-- `encode_packet` of a short payload writes the reply. -/
theorem encodePacket_short (buffer : Memory) (mask : Key) {payload : List UInt8}
    (h : payload.length < 126) :
    (encodePacket buffer mask payload payload.length).1.load 0 (payload.length + 2) =
      [129, UInt8.ofNat payload.length] ++ payload := by
  rw [encodePacket_load, if_pos h]

/-- The answer `out` to a frame: the reply if the frame is short, and something shorter otherwise. -/
structure Answers (f : Frame) (out : List UInt8) : Prop where
  short : f.Short → out = f.reply
  long : ¬ f.Short → out.length < f.reply.length

theorem transform_short {si : Sockitem} {f : Frame} (h : f.Short)
    (hbuf : si.recvbuffer.Holds 0 f.bytes) : (sendCb (transform si)).1 = f.reply := by
  have hholds : HoldsShort si.recvbuffer f.key f.payload := by
    have hframe := holdsShort_store h true 1 f.key si.recvbuffer
    rwa [← Frame.bytes, hbuf.store_eq] at hframe
  obtain ⟨hstart, hret, hmask, hload⟩ := hholds.decode si.rlength
  simp only [sendCb, transform, hstart, hret, hmask, Int.toNat_natCast, hload]
  rw [Frame.reply_of_short h]
  exact encodePacket_short si.sendbuffer f.key h

/-- A longer frame is read as one of 126 bytes, and answered by 128 bytes. -/
theorem transform_long {si : Sockitem} {f : Frame} (h : ¬ f.Short) (hlen : f.payload.length < 65536)
    (hbuf : si.recvbuffer.Holds 0 f.bytes) : (sendCb (transform si)).1.length = 128 := by
  have hmark : si.recvbuffer 1 = 254 := by
    have hbyte := store_maskedFrame_mark (Nat.not_lt.1 h) hlen true 1 f.key si.recvbuffer
    rwa [← Frame.bytes, hbuf.store_eq] at hbyte
  simp only [sendCb, transform, Memory.length_load, encodePacket, decodePacket_eq, hmark]
  decide

theorem Frame.length_reply_of_long {f : Frame} (h : ¬ f.Short) : 128 < f.reply.length := by
  have hge : ¬ f.payload.length < 126 := h
  have hfield : 2 ≤ (plainLength f.payload.length).length := by
    rw [plainLength, if_neg hge]
    split
    · simp [hostBytes]
    · simp [hostBytes]
  rw [f.length_reply]
  omega

/-- A piece that starts with a frame is answered for that frame only. -/
theorem serve_frame (lib : OpenSsl) {si : Sockitem} (hopen : Opened si) (f : Frame)
    (more : List UInt8) (hfit : (f.bytes ++ more).length ≤ bufferLength) :
    ∃ si' out, serve lib (f.bytes ++ more) (.alive si) = some (.alive si', out) ∧ Opened si' ∧
      Answers f out := by
  have hbuf : (received si (f.bytes ++ more)).recvbuffer.Holds 0 f.bytes :=
    (Memory.holds_append_iff.1 (Memory.holds_store si.recvbuffer 0 (f.bytes ++ more))).1
  have hlen : f.payload.length < 65536 := by
    rw [List.length_append, Frame.bytes, length_maskedFrame, bufferLength] at hfit
    omega
  refine ⟨(sendCb (transform (received si (f.bytes ++ more)))).2, _, ?_, ⟨rfl, rfl⟩,
    fun h => transform_short h hbuf, fun h => ?_⟩
  · simp only [serve, recvCb, hopen.1, Option.map_some]
    rfl
  · rw [transform_long h hlen hbuf]
    exact f.length_reply_of_long h

theorem Answers.length_le {f : Frame} {out : List UInt8} (h : Answers f out) :
    out.length ≤ f.reply.length := by
  by_cases hs : f.Short
  · rw [h.short hs]
  · exact (h.long hs).le

theorem Frame.length_reply_pos (f : Frame) : 0 < f.reply.length := by
  rw [f.length_reply]
  omega

/-- Only no frames at all get no reply. -/
theorem flatMap_reply_eq_nil {frames : List Frame} (h : (frames.flatMap Frame.reply).length = 0) :
    frames = [] := by
  cases frames with
  | nil => rfl
  | cons f frames =>
      have hpos := f.length_reply_pos
      rw [List.flatMap_cons, List.length_append] at h
      omega

/-- What is sent for the later pieces: at most as much as expected, all of it exactly when every piece is
one short frame. -/
structure SentFor (later : List (Frame × List Frame)) (out : List UInt8) : Prop where
  length_le : out.length ≤ ((framesOf [] later).flatMap Frame.reply).length
  single : ((framesOf [] later).flatMap Frame.reply).length ≤ out.length →
    ∀ g ∈ later, g.2 = [] ∧ g.1.Short
  reply : (∀ g ∈ later, g.2 = [] ∧ g.1.Short) → out = (framesOf [] later).flatMap Frame.reply

theorem framesOf_nil_cons (g : Frame × List Frame) (later : List (Frame × List Frame)) :
    (framesOf [] (g :: later)).flatMap Frame.reply =
      g.1.reply ++ (g.2.flatMap Frame.reply ++ (framesOf [] later).flatMap Frame.reply) := by
  simp [framesOf]

theorem sentFor_cons {g : Frame × List Frame} {later : List (Frame × List Frame)}
    {out rest : List UInt8} (h : Answers g.1 out) (hrest : SentFor later rest) :
    SentFor (g :: later) (out ++ rest) := by
  have hle := h.length_le
  have hle' := hrest.length_le
  refine ⟨?_, fun hlong => ?_, fun hall => ?_⟩
  · simp only [framesOf_nil_cons, List.length_append]
    omega
  · -- nothing is missing, so neither this piece nor a later one has left anything out
    simp only [framesOf_nil_cons, List.length_append] at hlong
    have hnone : g.2 = [] := flatMap_reply_eq_nil (by omega)
    have hshort : g.1.Short := by
      by_contra hs
      have hless := h.long hs
      omega
    have hlater := hrest.single (by omega)
    intro x hx
    rcases List.mem_cons.1 hx with rfl | hx
    · exact ⟨hnone, hshort⟩
    · exact hlater x hx
  · obtain ⟨hnone, hshort⟩ := hall g List.mem_cons_self
    rw [framesOf_nil_cons, hnone, h.short hshort,
      hrest.reply fun x hx => hall x (List.mem_cons_of_mem g hx), List.flatMap_nil, List.nil_append]

theorem sent_frames (lib : OpenSsl) (later : List (Frame × List Frame)) : ∀ si : Sockitem,
    Opened si →
      (∀ g ∈ later, (g.1.bytes ++ g.2.flatMap Frame.bytes).length ≤ bufferLength) →
      ∃ out, sent lib (.alive si) (later.map fun g => g.1.bytes ++ g.2.flatMap Frame.bytes) =
        some out ∧ SentFor later out := by
  induction later with
  | nil =>
      intro si _ _
      exact ⟨[], rfl, by simp [framesOf], by simp, fun _ => rfl⟩
  | cons g later ih =>
      intro si hopen hfit
      obtain ⟨si', out, hserve, hopen', hanswer⟩ :=
        serve_frame lib hopen g.1 (g.2.flatMap Frame.bytes) (hfit g List.mem_cons_self)
      obtain ⟨rest, hsent, hrest⟩ := ih si' hopen' fun x hx => hfit x (List.mem_cons_of_mem g hx)
      refine ⟨out ++ rest, ?_, sentFor_cons hanswer hrest⟩
      rw [List.map_cons, sent, hserve, Option.bind_some, hsent, Option.map_some]

/-! ## Single bytes -/

/-- Before the handshake, with nothing behind the first byte of the buffer. -/
structure Quiet (si : Sockitem) : Prop where
  status : si.status = .handshark
  callback : si.callback = .recvCb
  empty : ∀ a, 1 ≤ a → text si a = 0

/-- In a buffer of one byte there is no line end and no room for the key. -/
theorem readline_quiet {si : Sockitem} (h : Quiet si) :
    (readline (text si) 0).1 = none ∧ (readline (text si) 0).2.length ≤ 1 := by
  have h₁ : text si 1 = 0 := h.empty 1 le_rfl
  by_cases h₀ : text si 0 = 0
  · simp [readline, Memory.strlen, h₀, readlineLoop]
  · simp [readline, Memory.strlen, bufferLength, h₀, h₁, readlineLoop]

theorem handshark_quiet (lib : OpenSsl) {si : Sockitem} (h : Quiet si) :
    handshark lib si = some si := by
  obtain ⟨hnone, hlen⟩ := readline_quiet h
  have hname : ¬ keyName <:+: (readline (text si) 0).2 := by
    intro hinfix
    have hle := hinfix.length_le
    have hsize : keyName.length = 17 := by decide
    omega
  rw [handshark, handsharkLoop, if_neg (by omega), if_neg hname]
  simp [hnone]

theorem Quiet.received {si : Sockitem} (h : Quiet si) (b : UInt8) : Quiet (received si [b]) := by
  refine ⟨h.status, h.callback, fun a ha => ?_⟩
  have hbefore := h.empty a ha
  have hsame : (si.recvbuffer.store 0 [b]) a = si.recvbuffer a := Memory.store_after (by simpa using ha)
  simp only [text, EpollWebsocket.received, hsame] at hbefore ⊢
  exact hbefore

theorem serve_byte (lib : OpenSsl) {si : Sockitem} (h : Quiet si) (b : UInt8) :
    serve lib [b] (.alive si) = some (.alive (received si [b]), []) := by
  have hquiet := h.received b
  simp only [serve, recvCb, h.status, handshark_quiet lib hquiet, Option.map_some, hquiet.callback]

/-- A stream that arrives byte by byte is not answered. -/
theorem sent_singleBytes (lib : OpenSsl) (stream : List UInt8) : ∀ si : Sockitem, Quiet si →
    sent lib (.alive si) (stream.map fun b => [b]) = some [] := by
  induction stream with
  | nil =>
      intro si _
      rfl
  | cons b stream ih =>
      intro si h
      rw [List.map_cons, sent, serve_byte lib h b, Option.bind_some, ih _ (h.received b)]
      rfl

/-- What `malloc` returns when the memory is fresh from the system. -/
def freshHeap : Sockitem where
  callback := .recvCb
  recvbuffer := .zeroed
  sendbuffer := .zeroed
  rlength := 0
  slength := 0
  status := .handshark

theorem quiet_freshHeap : Quiet (acceptCb freshHeap) := by
  refine ⟨rfl, rfl, fun a _ => ?_⟩
  simp [text, acceptCb, freshHeap, Memory.zeroed]

/-- The 101 response is not empty. -/
theorem expected_ne_nil (lib : OpenSsl) (key : List UInt8) (frames : List Frame) :
    expected lib key frames ≠ [] := by
  intro h
  have hlen := congrArg List.length h
  simp only [expected, response, List.length_append, List.length_nil] at hlen
  have hend : (ascii "\r\n\r\n").length = 4 := by decide
  omega

theorem flatten_singleBytes (stream : List UInt8) : (stream.map fun b => [b]).flatten = stream := by
  induction stream with
  | nil => rfl
  | cons b stream ih => rw [List.map_cons, List.flatten_cons, ih, List.singleton_append]

/-- Cut into single bytes, no stream gets the answer it should get. -/
theorem not_independent (lib : OpenSsl) (stream key : List UInt8) (frames : List Frame) :
    ¬ Independent lib stream (expected lib key frames) := by
  intro h
  have hbytes := h freshHeap (stream.map fun b => [b]) (flatten_singleBytes stream) (by
    intro c hc
    obtain ⟨b, -, rfl⟩ := List.mem_map.1 hc
    simp [bufferLength])
  rw [sent_singleBytes lib stream _ quiet_freshHeap, Option.some.injEq] at hbytes
  exact expected_ne_nil lib key frames hbytes.symm

/-! ## Cuts between messages -/

theorem sent_pieces (lib : OpenSsl) (heap : Sockitem) {r : Request} (hr : r.Readable)
    (hdigest : 0 ∉ lib.sha1 (r.key ++ guid)) (first : List Frame) (later : List (Frame × List Frame))
    (hfit : ∀ c ∈ pieces r first later, c.length ≤ bufferLength) :
    ∃ out, sent lib (.alive (acceptCb heap)) (pieces r first later) =
      some (response (secAccept lib r.key) ++ out) ∧ SentFor later out := by
  have hstatus : (acceptCb heap).status = .handshark := rfl
  obtain ⟨si, hserve, hopen⟩ := serve_request hstatus hr hdigest (first.flatMap Frame.bytes)
    (hfit _ List.mem_cons_self)
  obtain ⟨out, hsent, hout⟩ := sent_frames lib later si hopen fun g hg =>
    hfit _ (List.mem_cons_of_mem _ (List.mem_map_of_mem hg))
  refine ⟨out, ?_, hout⟩
  rw [pieces, sent, hserve, Option.bind_some, hsent, Option.map_some]

/-- **Segmentation.** No stream of an opening request and text frames gets the expected answer for every
cut into pieces of 1 to 1024 bytes. For a request that `handshark` can read, with a digest that has no zero
byte, and a cut that goes between messages only, the answer is the expected one exactly when every piece
is one message and no payload is longer than 125 bytes. -/
theorem answer_depends_on_segmentation (lib : OpenSsl) :
    (∀ (opening key : List UInt8) (frames : List Frame),
      ¬ Independent lib (opening ++ frames.flatMap Frame.bytes) (expected lib key frames)) ∧
    (∀ (heap : Sockitem) (r : Request) (first : List Frame) (later : List (Frame × List Frame)),
      r.Readable → 0 ∉ lib.sha1 (r.key ++ guid) →
      (∀ c ∈ pieces r first later, c.length ≤ bufferLength) →
        (sent lib (.alive (acceptCb heap)) (pieces r first later) =
            some (expected lib r.key (framesOf first later)) ↔
          first = [] ∧ ∀ g ∈ later, g.2 = [] ∧ g.1.payload.length < 126)) := by
  refine ⟨fun opening key frames => not_independent lib _ key frames, ?_⟩
  intro heap r first later hr hdigest hfit
  obtain ⟨out, hsent, hout⟩ := sent_pieces lib heap hr hdigest first later hfit
  have hsplit : (framesOf first later).flatMap Frame.reply =
      first.flatMap Frame.reply ++ (framesOf [] later).flatMap Frame.reply := by
    simp [framesOf]
  rw [hsent, expected, hsplit, Option.some.injEq, List.append_cancel_left_eq]
  constructor
  · -- nothing is missing, so no frame came with the request
    intro heq
    have hle := hout.length_le
    have hlen := congrArg List.length heq
    rw [List.length_append] at hlen
    exact ⟨flatMap_reply_eq_nil (by omega), hout.single (by omega)⟩
  · rintro ⟨rfl, hall⟩
    rw [List.flatMap_nil, List.nil_append]
    exact hout.reply hall

/-- The digest of the sample key of RFC 6455. -/
def sampleDigest : List UInt8 :=
  [0xb3, 0x7a, 0x4f, 0x2c, 0xc0, 0x62, 0x4f, 0x16, 0x90, 0xf6, 0x46, 0x06, 0xcf, 0x38, 0x59, 0x45, 0xb2,
    0xbe, 0xc4, 0xea]

/-- Functions that agree with SHA-1 and base64 on the sample. -/
def sampleSsl : OpenSsl where
  sha1 _ := sampleDigest
  base64 d :=
    if d = sampleDigest then ascii "s3pPLMBiTxaQ9kYGzzhZRbK+xOo=\n"
    else List.replicate (4 * ((d.length + 2) / 3)) 65 ++ [10]
  sha1_length _ := rfl
  base64_length d _ _ := by
    split
    · next h =>
        subst h
        decide
    · simp
  base64_text d := by
    split
    · decide
    · simp

/-- The sample request of RFC 6455, in short. -/
def sampleRequest : Request where
  before := [⟨ascii "GET /chat HTTP/1.1", by decide, by decide, by decide⟩,
    ⟨ascii "Upgrade: websocket", by decide, by decide, by decide⟩]
  key := ascii "dGhlIHNhbXBsZSBub25jZQ=="
  after := [⟨ascii "Sec-WebSocket-Version: 13", by decide, by decide, by decide⟩]
  keyNoNul := by decide
  keyNoCr := by decide

/-- Two frames of the client. -/
def sampleFrames : List Frame := [⟨fun _ => 7, ascii "Hello"⟩, ⟨fun j => UInt8.ofNat j, ascii "World"⟩]

theorem sampleRequest_readable : sampleRequest.Readable where
  short := by decide
  other := by decide
  key := by decide

/-- Control: one piece for each message of the sample, and both frames come back. -/
theorem answer_depends_on_segmentation_sample :
    sent sampleSsl (.alive (acceptCb freshHeap))
        (pieces sampleRequest [] (sampleFrames.map fun f => (f, []))) =
      some (response (ascii "s3pPLMBiTxaQ9kYGzzhZRbK+xOo=") ++
        [129, 5, 72, 101, 108, 108, 111] ++ [129, 5, 87, 111, 114, 108, 100]) := by
  have h := ((answer_depends_on_segmentation sampleSsl).2 freshHeap sampleRequest []
    (sampleFrames.map fun f => (f, [])) sampleRequest_readable (by decide) (by decide +kernel)).2
    ⟨rfl, by decide⟩
  exact h

/-- The sample arrives byte by byte and nothing is sent. -/
theorem sample_unanswered :
    sent sampleSsl (.alive (acceptCb freshHeap))
        ((sampleRequest.bytes ++ sampleFrames.flatMap Frame.bytes).map fun b => [b]) = some [] ∧
      ¬ Independent sampleSsl (sampleRequest.bytes ++ sampleFrames.flatMap Frame.bytes)
        (expected sampleSsl sampleRequest.key sampleFrames) :=
  ⟨sent_singleBytes sampleSsl _ _ quiet_freshHeap, not_independent sampleSsl _ _ _⟩

end CppMisc.EpollWebsocket
