import CppMisc.EpollWebsocket.Segmentation

/-!
# What `handshark` touches

`handsharkLoop` says what a request does to its connection. `tracedLoop` is the same loop with the list of
what it touches on the way: the indices read from `recvbuffer`, the indices written to `linebuf` and to
`sec_accept`, and the argument of `SHA1`. Indices are written down also where they lie outside the array;
only when `linebuf` has been overrun does the list end, since nothing is known about the stack behind it.
Its second component is the loop of the model (`tracedLoop_snd`).

A line of exactly 256 bytes fills `linebuf` and leaves no zero byte in it. `strstr` and `strcat` then run on
into what follows the array, which is the parameter `beyond`: the bytes from the end of `linebuf` up to the
next zero byte.
-/

set_option autoImplicit false

namespace CppMisc.EpollWebsocket

open CppMisc.Library

/-- One thing that `handshark` or a function it calls does. -/
inductive Access where
  /-- An index read from `si->recvbuffer`. -/
  | recvbuffer (i : Int)
  /-- An index written to `linebuf`. -/
  | linebuf (i : Nat)
  /-- The bytes given to `SHA1`. -/
  | sha1 (d : List UInt8)
  /-- An index written to `sec_accept`. -/
  | secAccept (i : Int)
  deriving DecidableEq

/-- The string in `linebuf` after a line has been read. -/
def lineText (beyond line : List UInt8) : List UInt8 :=
  if line.length < 256 then line else line ++ beyond

/-- The test for a line end at `level`: the second byte is looked at only behind a carriage return. -/
def lineEndAccesses (allbuf : Memory) (level : Nat) : List Access :=
  if allbuf level = 13 then [.recvbuffer level, .recvbuffer (level + 1)] else [.recvbuffer level]

/-- The loop of `readline`, with `i` bytes already in `linebuf`. -/
def readlineLoopAccesses (allbuf : Memory) : Nat → Nat → Nat → List Access
  | 0, _, _ => []
  | n + 1, level, i =>
      if allbuf level = 13 ∧ allbuf (level + 1) = 10 then lineEndAccesses allbuf level
      else
        lineEndAccesses allbuf level ++
          .linebuf i :: readlineLoopAccesses allbuf n (level + 1) (i + 1)

/-- `memset` and `readline`. `strlen` reads up to and including the zero byte that it finds. -/
def readlineAccesses (allbuf : Memory) (level : Nat) : List Access :=
  (List.range 256).map .linebuf ++
    ((List.range (allbuf.strlen 0 (2 * bufferLength + 1) + 1)).map (fun i => .recvbuffer i) ++
      readlineLoopAccesses allbuf (allbuf.strlen 0 (2 * bufferLength + 1) - level) level 0)

/-- `strcat` of `GUID` and its zero byte behind the first `n` bytes of `linebuf`. -/
def strcatAccesses (n : Nat) : List Access :=
  (List.range (guid.length + 1)).map fun i => .linebuf (n + i)

/-- `base64_encode`: the text is copied, and its last byte becomes the end of the string. With an empty text
that is the byte in front of `out_str`. -/
def base64EncodeAccesses (lib : OpenSsl) (inStr : List UInt8) : List Access :=
  (List.range (lib.base64 inStr).length).map (fun i => .secAccept i) ++
    [.secAccept ((lib.base64 inStr).length - 1)]

/-- What follows `strcat` for a line with the key. -/
def answerAccesses (lib : OpenSsl) (linebuf : List UInt8) : List Access :=
  .sha1 ((linebuf ++ guid).drop 19) ::
    base64EncodeAccesses lib (cString (lib.sha1 ((linebuf ++ guid).drop 19)))

/-- The loop of `handshark` with what it touches. -/
def tracedLoop (lib : OpenSsl) (beyond : List UInt8) (si : Sockitem) :
    Nat → Nat → List Access × Option Sockitem
  | 0, _ => ([], none)
  | rounds + 1, level =>
      let line := (readline (text si) level).2
      let reading := readlineAccesses (text si) level
      if 256 < line.length then (reading, none)
      else if keyName <:+: lineText beyond line then
        if 256 ≤ (lineText beyond line).length + guid.length then
          (reading ++ strcatAccesses (lineText beyond line).length, none)
        else
          (reading ++ strcatAccesses (lineText beyond line).length ++ answerAccesses lib line,
            (answerKey lib line).map (switchProtocols si))
      else
        match (readline (text si) level).1 with
        | none =>
            -- `level` is -1 when the loop test reads `recvbuffer[level]`; the byte there is the highest
            -- byte of the pointer `callback` and no carriage return
            (reading ++ [.recvbuffer (-1)], if 256 ≤ line.length then none else some si)
        | some level' =>
            if text si level' = 13 ∧ text si (level' + 1) = 10 then
              (reading ++ lineEndAccesses (text si) level',
                if 256 ≤ line.length then none else some si)
            else
              let rest := tracedLoop lib beyond si rounds level'
              (reading ++ lineEndAccesses (text si) level' ++ rest.1,
                if 256 ≤ line.length then none else rest.2)

/-- What a call of `handshark` touches. -/
def accesses (lib : OpenSsl) (beyond : List UInt8) (si : Sockitem) : List Access :=
  (tracedLoop lib beyond si (bufferLength + 2) 0).1

theorem lineText_of_lt {line : List UInt8} (h : line.length < 256) (beyond : List UInt8) :
    lineText beyond line = line := if_pos h

theorem length_le_lineText (beyond line : List UInt8) : line.length ≤ (lineText beyond line).length := by
  unfold lineText
  split
  · exact le_rfl
  · rw [List.length_append]
    omega

/-- The trace goes with the loop of the model. -/
theorem tracedLoop_snd (lib : OpenSsl) (beyond : List UInt8) (si : Sockitem) (rounds : Nat) :
    ∀ level, (tracedLoop lib beyond si rounds level).2 = handsharkLoop lib si rounds level := by
  induction rounds with
  | zero =>
      intro level
      rfl
  | succ rounds ih =>
      intro level
      rcases hread : readline (text si) level with ⟨next, line⟩
      rcases lt_or_ge line.length 256 with hlt | hge
      · have hroom : ¬ 256 < line.length := by omega
        have hshort : ¬ 256 ≤ line.length := by omega
        simp only [tracedLoop, handsharkLoop, hread, lineText_of_lt hlt, hroom, hshort, if_false]
        by_cases hkey : keyName <:+: line
        · simp only [hkey, if_true]
          split <;> rfl
        · simp only [hkey, if_false]
          cases next with
          | none => rfl
          | some level' =>
              simp only
              split
              · rfl
              · exact ih level'
      · -- a line that does not leave room for a zero byte has no next state
        have hlong := length_le_lineText beyond line
        have hover : 256 ≤ (lineText beyond line).length + guid.length := by omega
        simp only [tracedLoop, handsharkLoop, hread, hge, hover, if_true]
        split
        · rfl
        · split
          · rfl
          · cases next with
            | none => rfl
            | some level' =>
                simp only
                split <;> rfl

end CppMisc.EpollWebsocket
