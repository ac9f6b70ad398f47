import CppMisc.EpollWebsocket.Packet

/-!
# The connections of `websocket/epoll_websocket.c`

A connection is a `sockitem` with a buffer for each direction and a status. `recv_cb` reads whatever the
socket has into `recvbuffer`, always from its start, and hands the buffer to `handshark` or to `transform`
as if it held one complete message: the number of bytes received is not kept (`rlength` is set to 0).
Both put an answer into `sendbuffer` and ask for the event on which `send_cb` sends it.

The two buffers and `rlength` are neighbours in the structure, which is what string functions see that run
over the end of `recvbuffer` (`text`). The local arrays of `handshark` have no bounds checks: where a line
does not fit there is no next state. SHA-1 and base64 are OpenSSL's; `OpenSsl` states what their
documentation says about the lengths.
-/

set_option autoImplicit false

namespace CppMisc.EpollWebsocket

open CppMisc.Library

/-- The bytes of an ASCII string. -/
def ascii (s : String) : List UInt8 := s.toList.map fun c => UInt8.ofNat c.toNat

/-- The part of a character array that string functions see. -/
def cString (bs : List UInt8) : List UInt8 := bs.takeWhile (· ≠ 0)

/-- `GUID`. -/
def guid : List UInt8 := ascii "258EAFA5-E914-47DA-95CA-C5AB0DC85B11"

/-- The name that `handshark` looks for in each line. -/
def keyName : List UInt8 := ascii "Sec-WebSocket-Key"

/-- `SHA1`, and the text that `BIO_f_base64` leaves in the memory `BIO`, its line break included. -/
structure OpenSsl where
  sha1 : List UInt8 → List UInt8
  base64 : List UInt8 → List UInt8
  sha1_length : ∀ d, (sha1 d).length = 20
  base64_length : ∀ d, d ≠ [] → d.length ≤ 48 → (base64 d).length = 4 * ((d.length + 2) / 3) + 1
  base64_text : ∀ d, 0 ∉ base64 d

/-- `enum WEBSOCKET_STATUS`. -/
inductive Status where
  | handshark
  | dataTransform
  | dataEnd
  deriving Repr, DecidableEq

/-- The function that a `sockitem` has registered. -/
inductive Callback where
  | recvCb
  | sendCb
  deriving Repr, DecidableEq

/-- `struct sockitem`. -/
structure Sockitem where
  callback : Callback
  recvbuffer : Memory
  sendbuffer : Memory
  rlength : Int
  slength : Nat
  status : Status

/-- What follows `si->recvbuffer` in memory: the two buffers, and the zero bytes of `rlength`. -/
def text (si : Sockitem) : Memory := fun a =>
  if a < bufferLength then si.recvbuffer a
  else if a < 2 * bufferLength then si.sendbuffer (a - bufferLength)
  else 0

/-- The loop of `readline`, with `n` bytes left: the new `level`, if the end of the line was found, and
what was written to `linebuf`. -/
def readlineLoop (allbuf : Memory) : Nat → Nat → Option Nat × List UInt8
  | 0, _ => (none, [])
  | n + 1, level =>
      if allbuf level = 13 ∧ allbuf (level + 1) = 10 then (some (level + 2), [])
      else
        let rest := readlineLoop allbuf n (level + 1)
        (rest.1, allbuf level :: rest.2)

/-- `readline`; `none` stands for the return value -1. The zero byte that `strlen` finds is in `rlength` at
the latest. -/
def readline (allbuf : Memory) (level : Nat) : Option Nat × List UInt8 :=
  readlineLoop allbuf (allbuf.strlen 0 (2 * bufferLength + 1) - level) level

/-- `base64_encode` into the 32 bytes of `sec_accept`. The last byte is replaced by the end of the
string. -/
def base64Encode (lib : OpenSsl) (inStr : List UInt8) : Option (List UInt8) :=
  if lib.base64 inStr = [] ∨ 32 < (lib.base64 inStr).length then none
  else some (lib.base64 inStr).dropLast

/-- The text that `handshark` prints into `head`. -/
def response (secAccept : List UInt8) : List UInt8 :=
  ascii "HTTP/1.1 101 Switching Protocols\r\nUpgrade: websocket\r\nConnection: Upgrade\r\nSec-WebSocket-Accept: "
    ++ secAccept ++ ascii "\r\n\r\n"

/-- The answer to a line with the key. The key is taken to start at `linebuf + 19`, and the digest to end
at its first zero byte. -/
def answerKey (lib : OpenSsl) (linebuf : List UInt8) : Option (List UInt8) :=
  (base64Encode lib (cString (lib.sha1 ((linebuf ++ guid).drop 19)))).map fun secAccept =>
    response (cString secAccept)

/-- The answer is put into `sendbuffer`, and the connection goes over to frames. -/
def switchProtocols (si : Sockitem) (head : List UInt8) : Sockitem :=
  { si with
    callback := .sendCb
    recvbuffer := si.recvbuffer.fill 0 bufferLength 0
    sendbuffer := si.sendbuffer.store 0 head
    slength := head.length
    status := .dataTransform }

/-- The loop of `handshark`. It makes at most one round for each two bytes that it can see. -/
def handsharkLoop (lib : OpenSsl) (si : Sockitem) : Nat → Nat → Option Sockitem
  | 0, _ => none
  | rounds + 1, level =>
      let line := (readline (text si) level).2
      -- `char linebuf[256]`
      if 256 ≤ line.length then none
      else if keyName <:+: line then
        if 256 ≤ line.length + guid.length then none
        else (answerKey lib line).map (switchProtocols si)
      else
        match (readline (text si) level).1 with
        | none => some si
        | some level' =>
            -- an empty line ends the request
            if text si level' = 13 ∧ text si (level' + 1) = 10 then some si
            else handsharkLoop lib si rounds level'

/-- `handshark`. -/
def handshark (lib : OpenSsl) (si : Sockitem) : Option Sockitem :=
  handsharkLoop lib si (bufferLength + 2) 0

/-- `transform`. -/
def transform (si : Sockitem) : Sockitem :=
  let decoded := decodePacket si.recvbuffer si.rlength
  let data := decoded.stream.load decoded.start decoded.ret.toNat
  let encoded := encodePacket si.sendbuffer decoded.mask data decoded.ret.toNat
  { si with
    callback := .sendCb
    recvbuffer := decoded.stream.fill 0 bufferLength 0
    sendbuffer := encoded.1
    slength := encoded.2
    status := .dataTransform }

/-- What `recv` returns. -/
inductive Recv where
  | bytes (chunk : List UInt8)
  | disconnect
  | again
  | failed

/-- A connection is served by its `sockitem` until that is freed. -/
inductive Conn where
  | alive (si : Sockitem)
  | freed

/-- What `recv` leaves in the item, with `rlength` set to 0: the number of bytes received goes nowhere. -/
def received (si : Sockitem) (chunk : List UInt8) : Sockitem :=
  { si with recvbuffer := si.recvbuffer.store 0 chunk, rlength := 0 }

/-- `recv_cb`. -/
def recvCb (lib : OpenSsl) (si : Sockitem) : Recv → Option Conn
  | .bytes chunk =>
      match si.status with
      | .handshark => (handshark lib (received si chunk)).map .alive
      | .dataTransform => some (.alive (transform (received si chunk)))
      | .dataEnd => some (.alive (received si chunk))
  | .disconnect => some .freed
  | .again => some (.alive si)
  | .failed => some .freed

/-- `send_cb`, with a `send` that takes all bytes: the bytes sent, and the item afterwards. -/
def sendCb (si : Sockitem) : List UInt8 × Sockitem :=
  (si.sendbuffer.load 0 si.slength,
    { si with callback := .recvCb, sendbuffer := si.sendbuffer.fill 0 bufferLength 0 })

/-- `accept_cb` sets two fields of what `malloc` returned. -/
def acceptCb (heap : Sockitem) : Sockitem :=
  { heap with callback := .recvCb, status := .handshark }

/-- One event for reading and, if it was asked for, the event for writing: the connection afterwards and the
bytes sent. -/
def serve (lib : OpenSsl) (chunk : List UInt8) : Conn → Option (Conn × List UInt8)
  | .freed => some (.freed, [])
  | .alive si =>
      (recvCb lib si (.bytes chunk)).map fun
        | .freed => (.freed, [])
        | .alive si' =>
            match si'.callback with
            | .sendCb => (.alive (sendCb si').2, (sendCb si').1)
            | .recvCb => (.alive si', [])

/-- All bytes that the server sends when successive calls of `recv` return `chunks`. -/
def sent (lib : OpenSsl) : Conn → List (List UInt8) → Option (List UInt8)
  | _, [] => some []
  | c, chunk :: rest =>
      (serve lib chunk c).bind fun r => (sent lib r.1 rest).map fun out => r.2 ++ out

end CppMisc.EpollWebsocket
