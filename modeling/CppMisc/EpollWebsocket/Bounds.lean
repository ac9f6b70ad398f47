import CppMisc.EpollWebsocket.Accesses

/-!
# Where `websocket/epoll_websocket.c` leaves its buffers

Neither `readline` nor `handshark` is told how many bytes were received or how long a line may be. The
accesses of the handshake stay inside `recvbuffer` and `linebuf` exactly for the contents that `Tame`
describes: there is a zero byte in the buffer, and the text in front of it consists of complete lines that fit
`linebuf`, up to an empty line or to a short line with the name of the key. In particular a request that has
come only in part makes the loop test read `recvbuffer[-1]`.

The frame codec is different. Its two longer forms are never taken when decoding, so the size that comes from
the frame has seven bits, and both directions stay in their buffers whatever was received
(`frame_handling_in_bounds`). This is about `decode_packet`, `encode_packet` and the final `memset`, not about the
`printf` of the payload.
-/

set_option autoImplicit false

namespace CppMisc.EpollWebsocket

open CppMisc.Library

/-! ## The handshake -/

/-- The access is inside `recvbuffer` or `linebuf`, if it is to one of them. -/
def Access.InBounds : Access → Prop
  | .recvbuffer i => 0 ≤ i ∧ i < bufferLength
  | .linebuf i => i < 256
  | .sha1 _ => True
  | .secAccept _ => True

/-- A text cut behind its first line: the line, and what follows its end. -/
def splitLine : List UInt8 → Option (List UInt8 × List UInt8)
  | [] => none
  | b :: rest =>
      if b = 13 ∧ rest.head? = some 10 then some ([], rest.tail)
      else (splitLine rest).map fun r => (b :: r.1, r.2)

example : splitLine (ascii "Host: a\r\n\r\n") = some (ascii "Host: a", ascii "\r\n") := by decide

/-- The first line of a text, also when it is not complete. -/
def firstLine (s : List UInt8) : List UInt8 := (splitLine s).elim s Prod.fst

/-- The texts that the handshake reads without leaving its arrays: complete lines of at most 256 bytes, up to
an empty line or to the first line with the name of the key, which leaves room for `GUID` and may be
incomplete. (A line of 256 bytes is not terminated in `linebuf`; the name must not be found in it and what
follows it.) -/
inductive Tame (beyond : List UInt8) : List UInt8 → Prop
  | key {s : List UInt8} : keyName <:+: firstLine s → (firstLine s).length ≤ 219 → Tame beyond s
  | blank {s line rest : List UInt8} : splitLine s = some (line, rest) → line.length ≤ 256 →
      ¬ keyName <:+: lineText beyond line → crlf <+: rest → Tame beyond s
  | next {s line rest : List UInt8} : splitLine s = some (line, rest) → line.length ≤ 256 →
      ¬ keyName <:+: lineText beyond line → Tame beyond rest → Tame beyond s

/-- A line end at the front leaves an empty line. -/
theorem firstLine_of_crlf {b : UInt8} {s : List UInt8} (h : b = 13 ∧ s.head? = some 10) :
    firstLine (b :: s) = [] := by
  rw [firstLine, splitLine, if_pos h]
  rfl

/-- Any other byte belongs to the line. -/
theorem firstLine_cons {b : UInt8} {s : List UInt8} (h : ¬ (b = 13 ∧ s.head? = some 10)) :
    firstLine (b :: s) = b :: firstLine s := by
  rw [firstLine, splitLine, if_neg h, firstLine]
  cases splitLine s <;> rfl

theorem splitLine_eq {s line rest : List UInt8} (h : splitLine s = some (line, rest)) :
    s = line ++ (crlf ++ rest) := by
  induction s generalizing line with
  | nil => cases h
  | cons b s ih =>
      rw [splitLine] at h
      split at h
      · next hend =>
          obtain ⟨rfl, hten⟩ := hend
          cases s with
          | nil => cases hten
          | cons c s =>
              obtain rfl : c = 10 := Option.some.inj hten
              cases h
              rfl
      · obtain ⟨⟨line', rest'⟩, hsplit, hpair⟩ := Option.map_eq_some_iff.1 h
        cases hpair
        rw [ih hsplit]
        rfl

theorem length_of_splitLine {s line rest : List UInt8} (h : splitLine s = some (line, rest)) :
    s.length = line.length + 2 + rest.length := by
  rw [splitLine_eq h, List.length_append, List.length_append]
  simp only [crlf, List.length_cons, List.length_nil]
  omega

section Scan

variable {m : Memory}

/-- The text `s` is what `readline` still has before it at `p`, and it ends inside `recvbuffer`. -/
structure Remains (m : Memory) (p : Nat) (s : List UInt8) : Prop where
  size : m.strlen 0 (2 * bufferLength + 1) = p + s.length
  fits : p + s.length < bufferLength
  held : m.Holds p (s ++ [0])

/-- Whether a line ends at `p` can be seen from the text. -/
theorem lineEnd_iff {s : List UInt8} {p : Nat} (h : m.Holds p (s ++ [0])) :
    (m p = 13 ∧ m (p + 1) = 10) ↔ crlf <+: s := by
  cases s with
  | nil =>
      have hzero : m p = 0 := h 0 (by decide)
      simp [hzero, crlf]
  | cons b s =>
      obtain ⟨hb, htail⟩ := Memory.holds_cons_iff.1 h
      cases s with
      | nil =>
          have hzero : m (p + 1) = 0 := htail 0 (by decide)
          simp [hzero, crlf]
      | cons c s =>
          obtain ⟨hc, -⟩ := Memory.holds_cons_iff.1 htail
          simp [hb, hc, crlf, List.cons_prefix_cons, eq_comm]

theorem prefix_crlf_cons_iff {b : UInt8} {s : List UInt8} :
    crlf <+: b :: s ↔ b = 13 ∧ s.head? = some 10 := by
  cases s with
  | nil => simp [crlf]
  | cons c s => simp [crlf, List.cons_prefix_cons, eq_comm]

theorem readlineLoop_eq {s : List UInt8} : ∀ {p : Nat}, m.Holds p (s ++ [0]) →
    readlineLoop m s.length p =
      ((splitLine s).map fun r => p + r.1.length + 2, firstLine s) := by
  induction s with
  | nil =>
      intro p _
      rfl
  | cons b s ih =>
      intro p h
      have hend := (lineEnd_iff h).trans prefix_crlf_cons_iff
      obtain ⟨hb, htail⟩ := Memory.holds_cons_iff.1 h
      rw [List.length_cons, readlineLoop, firstLine, splitLine]
      by_cases hcrlf : b = 13 ∧ s.head? = some 10
      · rw [if_pos (hend.2 hcrlf), if_pos hcrlf]
        rfl
      · rw [if_neg fun hm => hcrlf (hend.1 hm), if_neg hcrlf, ih htail, hb, firstLine]
        cases splitLine s with
        | none => rfl
        | some r =>
            simp only [Option.map_some, Option.elim_some, List.length_cons, Prod.mk.injEq, Option.some.injEq,
              and_true]
            omega

/-- `readline` in terms of the text. -/
theorem Remains.readline {p : Nat} {s : List UInt8} (h : Remains m p s) :
    readline m p = ((splitLine s).map fun r => p + r.1.length + 2, firstLine s) := by
  rw [EpollWebsocket.readline, h.size, Nat.add_sub_cancel_left]
  exact readlineLoop_eq h.held

/-- Behind the line that is cut off stands the rest. -/
theorem holds_rest {p : Nat} {s line rest : List UInt8} (h : m.Holds p (s ++ [0]))
    (hsplit : splitLine s = some (line, rest)) : m.Holds (p + line.length + 2) (rest ++ [0]) := by
  rw [splitLine_eq hsplit, List.append_assoc, List.append_assoc] at h
  exact (Memory.holds_append_iff.1 (Memory.holds_append_iff.1 h).2).2

theorem Remains.next {p : Nat} {s line rest : List UInt8} (h : Remains m p s)
    (hsplit : splitLine s = some (line, rest)) : Remains m (p + line.length + 2) rest := by
  have hlength := length_of_splitLine hsplit
  have hsize := h.size
  have hfits := h.fits
  exact ⟨by omega, by omega, holds_rest h.held hsplit⟩

/-- The test for a line end stays inside the buffer. -/
theorem inBounds_lineEndAccesses {p : Nat} {s : List UInt8} (hheld : m.Holds p (s ++ [0]))
    (hfits : p + s.length < bufferLength) : ∀ a ∈ lineEndAccesses m p, a.InBounds := by
  intro a ha
  rw [lineEndAccesses] at ha
  split at ha
  · next hcr =>
      -- a carriage return is not the zero byte at the end
      cases s with
      | nil =>
          have hzero : m p = 0 := hheld 0 (by decide)
          rw [hzero] at hcr
          cases hcr
      | cons b s =>
          rw [List.length_cons] at hfits
          rcases List.mem_pair.1 ha with rfl | rfl
          · exact ⟨by omega, by omega⟩
          · exact ⟨by omega, by omega⟩
  · rw [List.mem_singleton.1 ha]
    exact ⟨by omega, by omega⟩

/-- The loop of `readline` leaves `linebuf` exactly with a line of more than 256 bytes. -/
theorem inBounds_readlineLoopAccesses_iff {s : List UInt8} : ∀ {p i : Nat}, m.Holds p (s ++ [0]) →
    p + s.length < bufferLength → i ≤ 256 →
      ((∀ a ∈ readlineLoopAccesses m s.length p i, a.InBounds) ↔ i + (firstLine s).length ≤ 256) := by
  induction s with
  | nil =>
      intro p i _ _ hi
      simpa [readlineLoopAccesses, firstLine, splitLine] using hi
  | cons b s ih =>
      intro p i h hfits hi
      have hend := (lineEnd_iff h).trans prefix_crlf_cons_iff
      have htest := inBounds_lineEndAccesses h hfits
      obtain ⟨-, htail⟩ := Memory.holds_cons_iff.1 h
      rw [List.length_cons] at hfits
      rw [List.length_cons, readlineLoopAccesses]
      by_cases hcrlf : b = 13 ∧ s.head? = some 10
      · rw [if_pos (hend.2 hcrlf), firstLine_of_crlf hcrlf]
        exact ⟨fun _ => hi, fun _ => htest⟩
      · rw [if_neg fun hm => hcrlf (hend.1 hm), firstLine_cons hcrlf, List.forall_mem_append, List.forall_mem_cons,
          List.length_cons]
        constructor
        · -- the write at `i` was inside, so the induction hypothesis speaks of `i + 1`
          rintro ⟨-, hwrite, hrest⟩
          have hi' : i < 256 := hwrite
          have hle := (ih htail (by omega) (by omega)).1 hrest
          omega
        · intro hle
          have hi' : i < 256 := by omega
          exact ⟨htest, hi', (ih htail (by omega) (by omega)).2 (by omega)⟩

/-- `memset` and `strlen` stay inside the arrays, so `readline` does so when the line fits. -/
theorem Remains.inBounds_readlineAccesses_iff {p : Nat} {s : List UInt8} (h : Remains m p s) :
    (∀ a ∈ readlineAccesses m p, a.InBounds) ↔ (firstLine s).length ≤ 256 := by
  have hfits := h.fits
  have hloop := inBounds_readlineLoopAccesses_iff h.held hfits (Nat.zero_le 256)
  rw [Nat.zero_add] at hloop
  rw [readlineAccesses, h.size, Nat.add_sub_cancel_left, List.forall_mem_append, List.forall_mem_append, hloop]
  constructor
  · exact fun hall => hall.2.2
  · intro hle
    refine ⟨?_, ?_, hle⟩
    · intro a ha
      obtain ⟨i, hi, rfl⟩ := List.mem_map.1 ha
      exact List.mem_range.1 hi
    · intro a ha
      obtain ⟨i, hi, rfl⟩ := List.mem_map.1 ha
      have hlt := List.mem_range.1 hi
      exact ⟨by omega, by omega⟩

/-- `strcat` stays inside `linebuf` when the string, `GUID` and the zero byte have room in it. -/
theorem inBounds_strcatAccesses_iff (n : Nat) :
    (∀ a ∈ strcatAccesses n, a.InBounds) ↔ n + guid.length < 256 := by
  constructor
  · intro h
    exact h (.linebuf (n + guid.length)) (List.mem_map.2 ⟨guid.length, List.mem_range.2 (by omega), rfl⟩)
  · intro h a ha
    obtain ⟨i, hi, rfl⟩ := List.mem_map.1 ha
    have hlt := List.mem_range.1 hi
    show n + i < 256
    omega

theorem inBounds_answerAccesses (lib : OpenSsl) (line : List UInt8) :
    ∀ a ∈ answerAccesses lib line, a.InBounds := by
  intro a ha
  rw [answerAccesses, base64EncodeAccesses, List.mem_cons, List.mem_append, List.mem_map,
    List.mem_singleton] at ha
  rcases ha with rfl | ⟨i, -, rfl⟩ | rfl <;> trivial

end Scan

/-- A line leaves room for `GUID` as the string that it is in `linebuf` only if it does so itself. -/
theorem lineText_room_iff (beyond line : List UInt8) :
    (lineText beyond line).length + guid.length < 256 ↔ line.length ≤ 219 := by
  have hguid : guid.length = 36 := by decide
  have hle := length_le_lineText beyond line
  constructor
  · intro h
    omega
  · intro h
    rw [lineText_of_lt (by omega)]
    omega

section Rounds

variable (lib : OpenSsl) (beyond : List UInt8) {si : Sockitem} {p : Nat} {s : List UInt8}

/-- A round at the line with the key. -/
theorem inBounds_round_key (h : Remains (text si) p s) (rounds : Nat)
    (hkey : keyName <:+: lineText beyond (firstLine s)) :
    (∀ a ∈ (tracedLoop lib beyond si (rounds + 1) p).1, a.InBounds) ↔ (firstLine s).length ≤ 219 := by
  have hread := h.inBounds_readlineAccesses_iff
  have hcat := (inBounds_strcatAccesses_iff (lineText beyond (firstLine s)).length).trans
    (lineText_room_iff beyond (firstLine s))
  simp only [tracedLoop, h.readline, hkey, if_true]
  split
  · rw [hread]
    omega
  · split
    · rw [List.forall_mem_append, hread, hcat]
      omega
    · rw [List.forall_mem_append, List.forall_mem_append, hread, hcat]
      constructor
      · exact fun hall => hall.1.2
      · exact fun hle => ⟨⟨by omega, hle⟩, inBounds_answerAccesses lib _⟩

/-- A round at an incomplete line without the key reads `recvbuffer[-1]`. -/
theorem not_inBounds_round_open (h : Remains (text si) p s) (rounds : Nat)
    (hkey : ¬ keyName <:+: lineText beyond (firstLine s)) (hopen : splitLine s = none) :
    ¬ ∀ a ∈ (tracedLoop lib beyond si (rounds + 1) p).1, a.InBounds := by
  intro hall
  have hread := h.inBounds_readlineAccesses_iff
  simp only [tracedLoop, h.readline, hopen, Option.map_none, hkey, if_false] at hall
  split at hall
  · have hle := hread.1 hall
    omega
  · have hneg := hall (.recvbuffer (-1)) (List.mem_append_right _ List.mem_cons_self)
    exact absurd hneg.1 (by decide)

/-- A round at a complete line without the key. -/
theorem inBounds_round_next (h : Remains (text si) p s) (rounds : Nat) {line rest : List UInt8}
    (hsplit : splitLine s = some (line, rest)) (hkey : ¬ keyName <:+: lineText beyond line) :
    (∀ a ∈ (tracedLoop lib beyond si (rounds + 1) p).1, a.InBounds) ↔
      line.length ≤ 256 ∧ (crlf <+: rest ∨
        ∀ a ∈ (tracedLoop lib beyond si rounds (p + line.length + 2)).1, a.InBounds) := by
  have hread := h.inBounds_readlineAccesses_iff
  have hnext := h.next hsplit
  have htest := inBounds_lineEndAccesses hnext.held hnext.fits
  have hline : firstLine s = line := by rw [firstLine, hsplit, Option.elim_some]
  rw [hline] at hread
  simp only [tracedLoop, h.readline, hline, hsplit, Option.map_some, hkey, if_false]
  split
  · rw [hread]
    constructor
    · intro hle
      omega
    · intro hall
      exact hall.1
  · have hstop := lineEnd_iff hnext.held
    split
    · next hend =>
        rw [List.forall_mem_append, hread]
        exact ⟨fun hall => ⟨hall.1, .inl (hstop.1 hend)⟩, fun hall => ⟨hall.1, htest⟩⟩
    · next hend =>
        rw [List.forall_mem_append, List.forall_mem_append, hread]
        constructor
        · exact fun hall => ⟨hall.1.1, .inr hall.2⟩
        · rintro ⟨hle, hcrlf | hrest⟩
          · exact absurd (hstop.2 hcrlf) hend
          · exact ⟨⟨hle, htest⟩, hrest⟩

/-- The loop stays inside the arrays exactly on tame texts. Each round takes at least the two bytes of a line
end from the text. -/
theorem inBounds_tracedLoop_iff (rounds : Nat) : ∀ {p : Nat} {s : List UInt8}, Remains (text si) p s →
    s.length < 2 * rounds →
      ((∀ a ∈ (tracedLoop lib beyond si rounds p).1, a.InBounds) ↔ Tame beyond s) := by
  induction rounds with
  | zero =>
      intro p s _ hlen
      omega
  | succ rounds ih =>
      intro p s h hlen
      by_cases hkey : keyName <:+: lineText beyond (firstLine s)
      · -- the round ends the loop, and only the room for `GUID` matters
        rw [inBounds_round_key lib beyond h rounds hkey]
        constructor
        · intro hle
          rw [lineText_of_lt (by omega)] at hkey
          exact .key hkey hle
        · intro htame
          cases htame with
          | key _ hle => exact hle
          | blank hsplit _ hno _ =>
              rw [firstLine, hsplit] at hkey
              exact absurd hkey hno
          | next hsplit _ hno _ =>
              rw [firstLine, hsplit] at hkey
              exact absurd hkey hno
      · -- a line with room for `GUID` is terminated in `linebuf`, so the name is not in the line either
        have hnotKey : ∀ {P : Prop}, keyName <:+: firstLine s → (firstLine s).length ≤ 219 → P := by
          intro P hname hle
          rw [lineText_of_lt (by omega)] at hkey
          exact absurd hname hkey
        cases hsplit : splitLine s with
        | none =>
            refine iff_of_false (not_inBounds_round_open lib beyond h rounds hkey hsplit) ?_
            intro htame
            cases htame with
            | key hname hle => exact hnotKey hname hle
            | blank hs => rw [hsplit] at hs; cases hs
            | next hs => rw [hsplit] at hs; cases hs
        | some r =>
            -- the loop goes on behind the line, on a text that is shorter
            obtain ⟨line, rest⟩ := r
            have hno : ¬ keyName <:+: lineText beyond line := by
              rw [firstLine, hsplit] at hkey
              exact hkey
            have hshorter : rest.length < 2 * rounds := by
              have hlength := length_of_splitLine hsplit
              omega
            rw [inBounds_round_next lib beyond h rounds hsplit hno, ih (h.next hsplit) hshorter]
            constructor
            · rintro ⟨hle, hblank | htame⟩
              · exact .blank hsplit hle hno hblank
              · exact .next hsplit hle hno htame
            · intro htame
              cases htame with
              | key hname hle => exact hnotKey hname hle
              | blank hs hle _ hblank =>
                  rw [hsplit] at hs
                  cases hs
                  exact ⟨hle, .inl hblank⟩
              | next hs hle _ htame =>
                  rw [hsplit] at hs
                  cases hs
                  exact ⟨hle, .inr htame⟩

end Rounds

/-- The 1024 bytes of `recvbuffer` after `recv`: what was received, and behind it what was there before. -/
def bufferAfter (si : Sockitem) (chunk : List UInt8) : List UInt8 :=
  chunk ++ si.recvbuffer.load chunk.length (bufferLength - chunk.length)

theorem length_bufferAfter (si : Sockitem) {chunk : List UInt8} (h : chunk.length ≤ bufferLength) :
    (bufferAfter si chunk).length = bufferLength := by
  rw [bufferAfter, List.length_append, Memory.length_load]
  omega

theorem holds_bufferAfter (si : Sockitem) {chunk : List UInt8} (h : chunk.length ≤ bufferLength) :
    (text (received si chunk)).Holds 0 (bufferAfter si chunk) := by
  refine Memory.holds_append_iff.2 ⟨holds_received si h, ?_⟩
  intro i hi
  have hroom : i < bufferLength - chunk.length := by simpa using hi
  have hafter : si.recvbuffer.store 0 chunk (chunk.length + i) = si.recvbuffer (chunk.length + i) :=
    Memory.store_after (by omega)
  rw [Memory.getElem_load, text_of_lt (by omega), Nat.zero_add]
  exact hafter

theorem exists_cString_append {bs : List UInt8} (h : 0 ∈ bs) : ∃ tail, bs = cString bs ++ 0 :: tail := by
  induction bs with
  | nil => cases h
  | cons b bs ih =>
      by_cases hb : b = 0
      · exact ⟨bs, by simp [cString, hb]⟩
      · obtain ⟨tail, htail⟩ := ih ((List.mem_cons.1 h).resolve_left (Ne.symm hb))
        refine ⟨tail, ?_⟩
        have hcons : cString (b :: bs) = b :: cString bs := by simp [cString, hb]
        rw [hcons, List.cons_append, ← htail]

theorem zero_notMem_cString (bs : List UInt8) : 0 ∉ cString bs := by
  intro h
  have hne := List.mem_takeWhile_imp h
  simp at hne

/-- What `handshark` sees when there is a zero byte in the buffer. -/
theorem remains_received (si : Sockitem) (chunk : List UInt8) (h : chunk.length ≤ bufferLength)
    (hzero : 0 ∈ bufferAfter si chunk) :
    Remains (text (received si chunk)) 0 (cString (bufferAfter si chunk)) := by
  obtain ⟨tail, htail⟩ := exists_cString_append hzero
  have hlen := congrArg List.length htail
  rw [length_bufferAfter si h, List.length_append, List.length_cons] at hlen
  have hheld := holds_bufferAfter si h
  rw [htail, List.append_cons, Memory.holds_append_iff] at hheld
  refine ⟨?_, by omega, hheld.1⟩
  rw [Nat.zero_add]
  exact Memory.strlen_of_holds (by omega) (zero_notMem_cString _) hheld.1

theorem readlineAccesses_subset (lib : OpenSsl) (beyond : List UInt8) (si : Sockitem) (rounds p : Nat) :
    ∀ a ∈ readlineAccesses (text si) p, a ∈ (tracedLoop lib beyond si (rounds + 1) p).1 := by
  intro a ha
  rw [tracedLoop]
  split
  · exact ha
  · split
    · split
      · exact List.mem_append_left _ ha
      · exact List.mem_append_left _ (List.mem_append_left _ ha)
    · split
      · exact List.mem_append_left _ ha
      · split
        · exact List.mem_append_left _ ha
        · exact List.mem_append_left _ (List.mem_append_left _ ha)

/-- Without a zero byte `strlen` runs over the end of `recvbuffer`. -/
theorem not_inBounds_of_noNul (lib : OpenSsl) (beyond : List UInt8) (si : Sockitem) {chunk : List UInt8}
    (h : chunk.length ≤ bufferLength) (hzero : 0 ∉ bufferAfter si chunk) :
    ¬ ∀ a ∈ accesses lib beyond (received si chunk), a.InBounds := by
  intro hall
  have hheld := holds_bufferAfter si h
  have hlen := length_bufferAfter si h
  have hlong : bufferLength - 1 < (text (received si chunk)).strlen 0 (2 * bufferLength + 1) := by
    apply Memory.lt_strlen (by decide)
    intro i hi
    have hpos : 0 < bufferLength := by decide
    rw [hheld i (by omega)]
    intro hz
    exact hzero (hz ▸ List.getElem_mem _)
  have hmem : Access.recvbuffer bufferLength ∈ readlineAccesses (text (received si chunk)) 0 := by
    apply List.mem_append_right
    apply List.mem_append_left
    exact List.mem_map.2 ⟨bufferLength, List.mem_range.2 (by omega), rfl⟩
  have hbound := hall _ (readlineAccesses_subset lib beyond _ _ 0 _ hmem)
  exact absurd hbound.2 (by decide)

/-- **The bounds of the handshake.** Whatever was received and whatever the buffer held before, the accesses
of `handshark` and `readline` are inside `recvbuffer` and `linebuf` exactly when there is a zero byte in the
buffer and the text in front of it is tame. -/
theorem handshake_in_bounds_iff (lib : OpenSsl) (beyond : List UInt8) (si : Sockitem) (chunk : List UInt8)
    (h : chunk.length ≤ bufferLength) :
    (∀ a ∈ accesses lib beyond (received si chunk), a.InBounds) ↔
      0 ∈ bufferAfter si chunk ∧ Tame beyond (cString (bufferAfter si chunk)) := by
  by_cases hzero : 0 ∈ bufferAfter si chunk
  · have hremains := remains_received si chunk h hzero
    have hfits := hremains.fits
    have hloop := inBounds_tracedLoop_iff lib beyond (bufferLength + 2) hremains (by omega)
    rw [accesses, hloop]
    exact ⟨fun htame => ⟨hzero, htame⟩, fun hboth => hboth.2⟩
  · exact iff_of_false (not_inBounds_of_noNul lib beyond si h hzero) fun hboth => hzero hboth.1

/-- A request of two lines, and the text of the buffer that it arrives in. -/
def shortRequest : List UInt8 :=
  ascii "GET /chat HTTP/1.1\r\nSec-WebSocket-Key: dGhlIHNhbXBsZSBub25jZQ==\r\n\r\n"

theorem handshake_in_bounds_shortRequest :
    Tame [] shortRequest ∧
      ∀ a ∈ accesses sampleSsl [] (received freshHeap shortRequest), a.InBounds := by
  have htext : cString (bufferAfter freshHeap shortRequest) = shortRequest := by decide +kernel
  have hfirst : splitLine shortRequest = some (ascii "GET /chat HTTP/1.1",
      ascii "Sec-WebSocket-Key: dGhlIHNhbXBsZSBub25jZQ==\r\n\r\n") := by decide +kernel
  have htame : Tame [] shortRequest := .next hfirst (by decide) (by decide) (.key (by decide) (by decide))
  refine ⟨htame, (handshake_in_bounds_iff sampleSsl [] freshHeap shortRequest (by decide)).2
    ⟨by decide +kernel, ?_⟩⟩
  rw [htext]
  exact htame

/-- Control: the first three bytes of a request come alone, and the loop test reads `recvbuffer[-1]`. -/
theorem handshake_reads_before_buffer :
    ¬ ∀ (lib : OpenSsl) (beyond : List UInt8) (si : Sockitem) (chunk : List UInt8),
      si.status = .handshark → 1 ≤ chunk.length → chunk.length ≤ bufferLength →
        ∀ a ∈ accesses lib beyond (received si chunk), a.InBounds := by
  intro h
  have htext : cString (bufferAfter freshHeap (ascii "GET")) = ascii "GET" := by decide +kernel
  have hremains := remains_received freshHeap (ascii "GET") (by decide) (by decide +kernel)
  rw [htext] at hremains
  exact not_inBounds_round_open sampleSsl [] hremains (bufferLength + 1) (by decide) (by decide)
    (h sampleSsl [] freshHeap (ascii "GET") rfl (by decide) (by decide))

/-! ## Frames -/

/-- An index of one of the two buffers that is read or written. -/
inductive BufferAccess where
  | recvbuffer (i : Nat)
  | sendbuffer (i : Nat)
  deriving DecidableEq

/-- The index is inside the buffer. -/
def BufferAccess.InBounds : BufferAccess → Prop
  | .recvbuffer i => i < bufferLength
  | .sendbuffer i => i < bufferLength

/-- What an `int` becomes when it is passed to `memcpy`. -/
def toSizeT (n : Int) : Nat := (n % 2 ^ 64).toNat

/-- `decode_packet`. In each of the three forms the header, the length and the key are the bytes in front of
the payload; `umask` goes over the payload. -/
def decodePacketAccesses (stream : Memory) (length : Int) : List BufferAccess :=
  let decoded := decodePacket stream length
  (List.range decoded.start).map .recvbuffer ++
    (List.range' decoded.start decoded.ret.toNat).map .recvbuffer

/-- `encode_packet`, with a payload that stands at `stream` in the other buffer: the two bytes of the header,
the longer header behind them if there is one, and the copy of the payload. -/
def encodePacketAccesses (stream : Nat) (length : Int) : List BufferAccess :=
  let longer := if length < 126 then 0 else if length < 0xffff then 14 else 20
  (List.range (2 + longer)).map .sendbuffer ++
    ((List.range' stream (toSizeT length)).map .recvbuffer ++
      (List.range' 2 (toSizeT length)).map .sendbuffer)

/-- `transform`, the final `memset` included. The `printf` between the two calls is left out: its `%s` reads `data` up
to a zero byte, wherever that is. -/
def transformAccesses (si : Sockitem) : List BufferAccess :=
  let decoded := decodePacket si.recvbuffer si.rlength
  decodePacketAccesses si.recvbuffer si.rlength ++
    (encodePacketAccesses decoded.start decoded.ret ++ (List.range bufferLength).map .recvbuffer)

/-- Decoding a frame, encoding the answer and clearing the buffer touch only the 1024 bytes of each buffer, change
nothing behind them, and leave a length that `send_cb` can send. -/
structure StaysInBuffers (si : Sockitem) : Prop where
  accesses : ∀ a ∈ transformAccesses si, a.InBounds
  recvbuffer : ∀ a, bufferLength ≤ a → (transform si).recvbuffer a = si.recvbuffer a
  sendbuffer : ∀ a, bufferLength ≤ a → (transform si).sendbuffer a = si.sendbuffer a
  slength : (transform si).slength ≤ bufferLength

theorem inBounds_recvbuffer {start n : Nat} (h : start + n ≤ bufferLength) :
    ∀ a ∈ (List.range' start n).map BufferAccess.recvbuffer, a.InBounds := by
  intro a ha
  obtain ⟨i, hi, rfl⟩ := List.mem_map.1 ha
  have hlt := (List.mem_range'_1.1 hi).2
  show i < bufferLength
  omega

theorem inBounds_sendbuffer {start n : Nat} (h : start + n ≤ bufferLength) :
    ∀ a ∈ (List.range' start n).map BufferAccess.sendbuffer, a.InBounds := by
  intro a ha
  obtain ⟨i, hi, rfl⟩ := List.mem_map.1 ha
  have hlt := (List.mem_range'_1.1 hi).2
  show i < bufferLength
  omega

/-- The size of a frame never has more than seven bits. -/
theorem decodePacket_size (stream : Memory) (length : Int) :
    ∃ n : Nat, n < 128 ∧ (decodePacket stream length).ret = n ∧ (decodePacket stream length).start = 6 ∧
      ∀ a, 6 + n ≤ a → (decodePacket stream length).stream a = stream a := by
  refine ⟨(stream 1).toNat % 128, Nat.mod_lt _ (by decide), ?_, ?_, ?_⟩
  · rw [decodePacket_eq]
  · rw [decodePacket_eq]
  · intro a ha
    rw [decodePacket_eq]
    exact (umask_apply _ _ _ _ _).trans (if_neg (by omega))

theorem length_hostBytes (n k : Nat) : (hostBytes n k).length = k := by
  induction k generalizing n with
  | zero => rfl
  | succ k ih => rw [hostBytes, List.length_cons, ih]

/-- What lies behind the longest header and behind the payload is not changed. -/
theorem encodePacket_after (buffer : Memory) (mask : Key) (payload : List UInt8) {a : Nat}
    (hheader : 22 ≤ a) (hpayload : 2 + payload.length ≤ a) :
    (encodePacket buffer mask payload payload.length).1 a = buffer a := by
  have hlonger (n k : Nat) (hk : k ≤ 8) :
      2 + (hostBytes n k ++ List.ofFn mask ++ List.replicate 8 0).length ≤ a := by
    rw [List.length_append, List.length_append, length_hostBytes, List.length_ofFn, List.length_replicate]
    omega
  have hshort (h : NtyOphdr) : 0 + h.bytes.length ≤ a := by
    simp only [NtyOphdr.bytes, List.length_cons, List.length_nil]
    omega
  rw [encodePacket]
  simp only
  rw [Memory.store_after hpayload]
  split
  · exact Memory.store_after (hshort _)
  · split
    · rw [Memory.store_after (hlonger _ 2 (by decide)), Memory.store_after (hshort _)]
    · rw [Memory.store_after (hlonger _ 8 (by decide)), Memory.store_after (hshort _)]

/-- **Frames stay in their buffers** while they are decoded and encoded, for every content of `recvbuffer`: the two
longer forms are never decoded, so a frame is taken to have at most 127 bytes of payload. -/
theorem frame_handling_in_bounds (si : Sockitem) : StaysInBuffers si := by
  -- at most 127 bytes are decoded, so every range below ends far inside its buffer
  obtain ⟨n, hn, hret, hstart, hbehind⟩ := decodePacket_size si.recvbuffer si.rlength
  have hsize : toSizeT n = n := by
    rw [toSizeT, Int.emod_eq_of_lt (by omega) (by omega)]
    exact Int.toNat_natCast n
  have hlen : ((decodePacket si.recvbuffer si.rlength).stream.load 6 n).length = n := Memory.length_load _ _ _
  have hbuffer : bufferLength = 1024 := rfl
  refine ⟨?_, ?_, ?_, ?_⟩
  · -- the ranges of `decode_packet`, of `encode_packet` and of `memset`, one after the other
    simp only [transformAccesses, decodePacketAccesses, encodePacketAccesses, hret, hstart, hsize,
      Int.toNat_natCast, List.range_eq_range', List.forall_mem_append]
    refine ⟨⟨inBounds_recvbuffer (by omega), inBounds_recvbuffer (by omega)⟩, ⟨inBounds_sendbuffer ?_,
      inBounds_recvbuffer (by omega), inBounds_sendbuffer (by omega)⟩, inBounds_recvbuffer (by omega)⟩
    split
    · omega
    · split <;> omega
  · intro a ha
    have hfill : ¬ (0 ≤ a ∧ a < 0 + bufferLength) := by omega
    simp only [transform, Memory.fill, if_neg hfill]
    exact hbehind a (by omega)
  · intro a ha
    simp only [transform, hret, hstart, Int.toNat_natCast]
    have hafter := encodePacket_after si.sendbuffer (decodePacket si.recvbuffer si.rlength).mask
      ((decodePacket si.recvbuffer si.rlength).stream.load 6 n) (show 22 ≤ a by omega) (by omega)
    rw [hlen] at hafter
    exact hafter
  · simp only [transform, encodePacket, hret, Int.toNat_natCast]
    omega

end CppMisc.EpollWebsocket
