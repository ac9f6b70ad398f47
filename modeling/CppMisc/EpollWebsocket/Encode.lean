import CppMisc.Library.WebSocketFrames
import CppMisc.EpollWebsocket.Packet

/-!
# Which answers of `websocket/epoll_websocket.c` can be read

`encode_packet` should leave one unmasked final text frame at the start of its buffer and return its
length. It writes a header of two, 16 or 24 bytes, but copies the payload to `buffer + 2` and returns
`length + 2` in every case: a longer header is overwritten, and the two bytes in front of the payload say
that the payload is empty. A parser for RFC 6455 (`Library.WebSocketFrames`) then reads an empty frame and
finds the payload behind it.
-/

set_option autoImplicit false

namespace CppMisc.EpollWebsocket

open CppMisc.Library

/-- The bytes that `encode_packet` reports as the answer. -/
def encoded (buffer : Memory) (mask : Key) (payload : List UInt8) : List UInt8 :=
  (encodePacket buffer mask payload payload.length).1.load 0
    (encodePacket buffer mask payload payload.length).2

/-- The answer is one complete unmasked final text frame with the payload, as RFC 6455 writes it, and a
parser reads the payload back and leaves nothing over. -/
structure Decodable (buffer : Memory) (mask : Key) (payload : List UInt8) : Prop where
  frame : encoded buffer mask payload = WebSocket.plain 1 payload
  parsed : WebSocket.parse (encoded buffer mask payload) = some (⟨true, 1, none, payload⟩, [])

theorem encoded_short (buffer : Memory) (mask : Key) {payload : List UInt8}
    (h : payload.length < 126) : encoded buffer mask payload = WebSocket.plain 1 payload := by
  have hload := encodePacket_load buffer mask payload
  rw [if_pos h] at hload
  simpa [encoded, encodePacket, WebSocket.plain, WebSocket.plainLength, h] using hload

/-- A longer answer starts with the frame of an empty payload. -/
theorem encoded_long (buffer : Memory) (mask : Key) {payload : List UInt8}
    (h : ¬ payload.length < 126) :
    encoded buffer mask payload = WebSocket.plain 1 [] ++ payload := by
  have hload := encodePacket_load buffer mask payload
  rw [if_neg h] at hload
  exact hload

/-- **The answer can be read exactly when the payload fits the short length field.** For every payload,
every key and every content of the buffer, what `encode_packet` writes and reports is one complete unmasked
text frame with that payload if and only if the payload has fewer than 126 bytes. -/
theorem encodePacket_decodable_iff (buffer : Memory) (mask : Key) (payload : List UInt8) :
    Decodable buffer mask payload ↔ payload.length < 126 := by
  constructor
  · intro h
    by_contra hlong
    have hparsed := h.parsed
    rw [encoded_long buffer mask hlong,
      WebSocket.parse_plain 1 (show ([] : List UInt8).length < 2 ^ 64 by decide) payload] at hparsed
    -- the parser reads an empty frame first, and the payload is what is left over
    have hrest : payload = [] := congrArg Prod.snd (Option.some.inj hparsed)
    rw [hrest] at hlong
    exact hlong (by decide)
  · intro h
    have hframe := encoded_short buffer mask h
    refine ⟨hframe, ?_⟩
    have hplain := WebSocket.parse_plain 1 (show payload.length < 2 ^ 64 by omega) []
    rw [List.append_nil] at hplain
    rw [hframe]
    exact hplain

/-- Control: the frame of a payload of 200 bytes fits the buffer, and the answer cannot be read. -/
theorem encodePacket_garbles_200 :
    ¬ ∀ (buffer : Memory) (mask : Key) (payload : List UInt8),
      (WebSocket.plain 1 payload).length ≤ bufferLength → Decodable buffer mask payload := by
  intro h
  have hlen : (List.replicate 200 (65 : UInt8)).length = 200 := List.length_replicate
  have hfit : (WebSocket.plain 1 (List.replicate 200 65)).length ≤ bufferLength := by
    rw [WebSocket.length_plain, hlen]
    decide
  have hparsed := (h .zeroed (fun _ => 7) (List.replicate 200 65) hfit).parsed
  rw [encoded_long .zeroed (fun _ => 7) (by rw [hlen]; decide),
    WebSocket.parse_plain 1 (show ([] : List UInt8).length < 2 ^ 64 by decide)] at hparsed
  have hrest := congrArg List.length (congrArg Prod.snd (Option.some.inj hparsed))
  rw [hlen] at hrest
  cases hrest

end CppMisc.EpollWebsocket
