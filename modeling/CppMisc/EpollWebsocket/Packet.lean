import Mathlib.Tactic
import CppMisc.Library.Bytes

/-!
# The frame codec of `websocket/epoll_websocket.c`

`decode_packet` reads a client frame where it lies in `recvbuffer`, undoes the masking in place and
returns a pointer to the payload; `encode_packet` writes the answer. Both go through packed structures
with bit-fields, which on the targets of this program (little-endian, `gcc`) put the first field of a
byte into its low bits.

The packet length has three encodings. `decode_packet` chooses between them by `hdr->mask & 0x7F`, but
the seven length bits are the field `payload_length` and `mask` is a single bit, so the two tests for
126 and 127 are never true. Client frames themselves are described by `maskedFrame`, from RFC 6455 and
not from this program, and `decodePacket_inverts_iff` says which of them come back.
-/

set_option autoImplicit false

namespace CppMisc.EpollWebsocket

open CppMisc.Library

/-- `BUFFER_LENGTH`. -/
def bufferLength : Nat := 1024

/-- `struct _nty_ophdr`, field by field in the order of the bits. -/
structure NtyOphdr where
  opcode : Nat
  rsv3 : Nat
  rsv2 : Nat
  rsv1 : Nat
  fin : Nat
  payloadLength : Nat
  mask : Nat
  deriving Repr, DecidableEq

/-- The header read through a `nty_ophdr *`. -/
def ntyOphdr (stream : Memory) (p : Nat) : NtyOphdr :=
  let b₀ := (stream p).toNat
  let b₁ := (stream (p + 1)).toNat
  { opcode := b₀ % 16
    rsv3 := b₀ / 16 % 2
    rsv2 := b₀ / 32 % 2
    rsv1 := b₀ / 64 % 2
    fin := b₀ / 128
    payloadLength := b₁ % 128
    mask := b₁ / 128 }

/-- The two bytes of a header, as `memcpy` takes them from the structure. -/
def NtyOphdr.bytes (h : NtyOphdr) : List UInt8 :=
  [UInt8.ofNat (h.opcode + 16 * h.rsv3 + 32 * h.rsv2 + 64 * h.rsv1 + 128 * h.fin),
    UInt8.ofNat (h.payloadLength + 128 * h.mask)]

/-- An unsigned integer of `n` bytes in the order of the host, least significant byte first. -/
def hostUnsigned (stream : Memory) (p : Nat) : Nat → Nat
  | 0 => 0
  | n + 1 => hostUnsigned stream p n + (stream (p + n)).toNat * 256 ^ n

/-- The bytes of an unsigned integer in the order of the host. -/
def hostBytes (n : Nat) : Nat → List UInt8
  | 0 => []
  | k + 1 => UInt8.ofNat n :: hostBytes (n / 256) k

/-- What an unsigned value becomes when it is assigned to an `int`. -/
def toInt (n : Nat) : Int := (n : Int).bmod (2 ^ 32)

/-- A masking key, `char mask[4]`. -/
abbrev Key := Fin 4 → UInt8

/-- The key that stands at `p`. -/
def loadKey (stream : Memory) (p : Nat) : Key := fun j => stream (p + j)

/-- One round of the loop in `umask`. -/
def umaskByte (data : Nat) (mask : Key) (m : Memory) (i : Nat) : Memory :=
  m.put (data + i) (m (data + i) ^^^ mask (Fin.ofNat 4 i))

/-- `umask`: `len` bytes from `data` on are xored with the rotating key. A negative `len` leaves the
loop at once. -/
def umask (m : Memory) (data : Nat) (len : Int) (mask : Key) : Memory :=
  (List.range len.toNat).foldl (umaskByte data mask) m

/-- What `decode_packet` leaves behind: the buffer it changed in place, the array `mask`, `*ret`, and
the returned pointer as an offset into the buffer. -/
structure Decoded where
  stream : Memory
  mask : Key
  ret : Int
  start : Nat

/-- `decode_packet`; its argument `length` is never read. -/
def decodePacket (stream : Memory) (_length : Int) : Decoded :=
  let hdr := ntyOphdr stream 0
  let data := 2
  if hdr.mask &&& 0x7F = 126 then
    -- `struct _nty_websocket_head_126`: two bytes of length, then the key
    let size := toInt (hostUnsigned stream data 2)
    let mask := loadKey stream (data + 2)
    ⟨umask stream 8 size mask, mask, size, 8⟩
  else if hdr.mask &&& 0x7F = 127 then
    -- `struct _nty_websocket_head_127`: eight bytes of length, then the key
    let size := toInt (hostUnsigned stream data 8)
    let mask := loadKey stream (data + 8)
    ⟨umask stream 14 size mask, mask, size, 14⟩
  else
    let size := toInt hdr.payloadLength
    let mask := loadKey stream data
    ⟨umask stream 6 size mask, mask, size, 6⟩

/-- `encode_packet`: the header of the answer and, from the third byte on, the payload. The returned
length is that of the short header in every case. -/
def encodePacket (buffer : Memory) (mask : Key) (stream : List UInt8) (length : Nat) : Memory × Nat :=
  let head : NtyOphdr := ⟨1, 0, 0, 0, 1, 0, 0⟩
  let headed :=
    if length < 126 then
      buffer.store 0 { head with payloadLength := length }.bytes
    else if length < 0xffff then
      -- the extended header is written, then overwritten by the payload
      (buffer.store 0 head.bytes).store 2
        (hostBytes length 2 ++ List.ofFn mask ++ List.replicate 8 0)
    else
      (buffer.store 0 head.bytes).store 2
        (hostBytes length 8 ++ List.ofFn mask ++ List.replicate 8 0)
  (headed.store 2 stream, length + 2)

/-! ## What decoding does -/

theorem toInt_of_lt {n : Nat} (h : n < 2 ^ 31) : toInt n = n :=
  Int.bmod_eq_of_le (by omega) (by norm_num at h ⊢; omega)

/-- The single bit `hdr->mask` is never 126 or 127, so only the short form is ever read. -/
theorem decodePacket_eq (stream : Memory) (length : Int) :
    decodePacket stream length =
      ⟨umask stream 6 ((stream 1).toNat % 128 : Nat) (loadKey stream 2), loadKey stream 2,
        ((stream 1).toNat % 128 : Nat), 6⟩ := by
  have hbit : (ntyOphdr stream 0).mask ≤ 1 := by
    have hbyte := (stream 1).toNat_lt
    simp only [ntyOphdr, Nat.zero_add]
    omega
  have hand : (ntyOphdr stream 0).mask &&& 0x7F ≤ 1 := le_trans Nat.and_le_left hbit
  have hsize : toInt (ntyOphdr stream 0).payloadLength = ((stream 1).toNat % 128 : Nat) := by
    have hlt : (stream 1).toNat % 128 < 128 := Nat.mod_lt _ (by decide)
    simp only [ntyOphdr, Nat.zero_add]
    exact toInt_of_lt (by omega)
  have h126 : ¬ (ntyOphdr stream 0).mask &&& 0x7F = 126 := by omega
  have h127 : ¬ (ntyOphdr stream 0).mask &&& 0x7F = 127 := by omega
  simp only [decodePacket, if_neg h126, if_neg h127, hsize]

theorem umaskByte_apply (data : Nat) (mask : Key) (m : Memory) (i a : Nat) :
    umaskByte data mask m i a =
      if a = data + i then m a ^^^ mask (Fin.ofNat 4 i) else m a := by
  by_cases h : a = data + i
  · simp [umaskByte, Memory.put, h]
  · simp [umaskByte, Memory.put, h]

/-- The loop invariant: after `n` rounds exactly the first `n` bytes have been xored. -/
theorem foldl_umaskByte (data : Nat) (mask : Key) (m : Memory) (n a : Nat) :
    (List.range n).foldl (umaskByte data mask) m a =
      if data ≤ a ∧ a < data + n then m a ^^^ mask (Fin.ofNat 4 (a - data)) else m a := by
  induction n with
  | zero => simp
  | succ n ih =>
      rw [List.range_succ, List.foldl_append, List.foldl_cons, List.foldl_nil, umaskByte_apply, ih]
      by_cases hlast : a = data + n
      · have hbefore : ¬ (data ≤ a ∧ a < data + n) := by omega
        have hnow : data ≤ a ∧ a < data + (n + 1) := by omega
        rw [if_pos hlast, if_neg hbefore, if_pos hnow, hlast, Nat.add_sub_cancel_left]
      · rw [if_neg hlast]
        -- away from the new byte the two ranges agree
        have hrange : (data ≤ a ∧ a < data + n) ↔ (data ≤ a ∧ a < data + (n + 1)) := by omega
        simp only [hrange]

theorem umask_apply (m : Memory) (data n : Nat) (mask : Key) (a : Nat) :
    umask m data n mask a =
      if data ≤ a ∧ a < data + n then m a ^^^ mask (Fin.ofNat 4 (a - data)) else m a := by
  rw [umask, Int.toNat_natCast, foldl_umaskByte]

/-! ## What encoding leaves in the buffer -/

/-- The first two bytes are the header with the length or, from 126 bytes on, with the length bits 0; the
payload follows them in every case, over what was written of a longer header. -/
theorem encodePacket_load (buffer : Memory) (mask : Key) (payload : List UInt8) :
    (encodePacket buffer mask payload payload.length).1.load 0 (payload.length + 2) =
      [129, UInt8.ofNat (if payload.length < 126 then payload.length else 0)] ++ payload := by
  have hlen : payload.length + 2 =
      ([129, UInt8.ofNat (if payload.length < 126 then payload.length else 0)] ++ payload).length := by
    simp
  rw [hlen, Memory.load_eq_iff]
  refine Memory.holds_append_iff.2 ⟨?_, ?_⟩
  · intro i hi
    have hbefore : 0 + i < 2 := by simpa using hi
    simp only [encodePacket]
    rw [Memory.store_before hbefore]
    by_cases h : payload.length < 126
    · rw [if_pos h]
      refine (Memory.holds_store buffer 0 _ i (by simpa [NtyOphdr.bytes] using hi)).trans ?_
      simp [NtyOphdr.bytes, h]
    · rw [if_neg h]
      -- the longer header starts behind these two bytes as well
      split
      · rw [Memory.store_before hbefore]
        refine (Memory.holds_store buffer 0 _ i (by simpa [NtyOphdr.bytes] using hi)).trans ?_
        simp [NtyOphdr.bytes]
      · rw [Memory.store_before hbefore]
        refine (Memory.holds_store buffer 0 _ i (by simpa [NtyOphdr.bytes] using hi)).trans ?_
        simp [NtyOphdr.bytes]
  · simp only [encodePacket]
    exact Memory.holds_store _ _ _

/-! ## Client frames -/

/-- Masking: each byte is xored with the byte of the key at its position modulo four. -/
def maskBytes (key : Key) (payload : List UInt8) : List UInt8 :=
  payload.mapIdx fun i b => b ^^^ key (Fin.ofNat 4 i)

/-- The length field of a masked frame, the mask bit included: seven bits, or the mark 126 and sixteen
bits, or the mark 127 and 64 bits, most significant byte first. -/
def lengthField (n : Nat) : List UInt8 :=
  if n < 126 then [UInt8.ofNat (128 + n)]
  else if n < 65536 then UInt8.ofNat (128 + 126) :: (hostBytes n 2).reverse
  else UInt8.ofNat (128 + 127) :: (hostBytes n 8).reverse

/-- The masked frame of RFC 6455 with the given FIN bit, opcode, masking key and payload. -/
def maskedFrame (fin : Bool) (opcode : Fin 16) (key : Key) (payload : List UInt8) : List UInt8 :=
  UInt8.ofNat (opcode + 128 * fin.toNat) :: lengthField payload.length ++ List.ofFn key ++
    maskBytes key payload

/-- Where the payload of a masked frame starts. -/
def payloadStart (n : Nat) : Nat := 1 + (lengthField n).length + 4

theorem payloadStart_eq_six_iff (n : Nat) : payloadStart n = 6 ↔ n < 126 := by
  unfold payloadStart lengthField
  split
  · simp [*]
  · split
    · simp [hostBytes, *]
    · simp [hostBytes, *]

@[simp] theorem length_maskBytes (key : Key) (payload : List UInt8) :
    (maskBytes key payload).length = payload.length := by
  simp [maskBytes]

theorem length_maskedFrame (fin : Bool) (opcode : Fin 16) (key : Key) (payload : List UInt8) :
    (maskedFrame fin opcode key payload).length = payloadStart payload.length + payload.length := by
  simp [maskedFrame, payloadStart]
  omega

/-- From 126 bytes on the length bits of the second byte hold the mark of the longer form. -/
theorem store_maskedFrame_mark {payload : List UInt8} (h₁ : 126 ≤ payload.length)
    (h₂ : payload.length < 65536) (fin : Bool) (opcode : Fin 16) (key : Key) (stream : Memory) :
    stream.store 0 (maskedFrame fin opcode key payload) 1 = 254 := by
  simp [Memory.store, maskedFrame, lengthField, Nat.not_lt.2 h₁, h₂]

/-- A short frame, byte by byte: two bytes of header, the key, and the masked payload. -/
theorem maskedFrame_short {payload : List UInt8} (h : payload.length < 126) (fin : Bool)
    (opcode : Fin 16) (key : Key) :
    maskedFrame fin opcode key payload =
      UInt8.ofNat (opcode + 128 * fin.toNat) :: UInt8.ofNat (128 + payload.length) ::
        key 0 :: key 1 :: key 2 :: key 3 :: maskBytes key payload := by
  simp [maskedFrame, lengthField, h, List.ofFn_succ]

/-- What a buffer says that begins with a short frame, whatever comes after it. -/
structure HoldsShort (stream : Memory) (key : Key) (payload : List UInt8) : Prop where
  size : (stream 1).toNat % 128 = payload.length
  mask : loadKey stream 2 = key
  body : ∀ i (h : i < payload.length), stream (6 + i) = payload[i] ^^^ key (Fin.ofNat 4 i)

theorem holdsShort_store {payload : List UInt8} (h : payload.length < 126) (fin : Bool)
    (opcode : Fin 16) (key : Key) (stream : Memory) :
    HoldsShort (stream.store 0 (maskedFrame fin opcode key payload)) key payload := by
  rw [maskedFrame_short h]
  refine ⟨?_, ?_, ?_⟩
  · simp only [Memory.store]
    simp
    omega
  · funext j
    fin_cases j <;> simp [loadKey, Memory.store]
  · intro i hi
    have hidx : 6 + i = i + 1 + 1 + 1 + 1 + 1 + 1 := by omega
    simp only [Memory.store, Nat.zero_le, if_true, Nat.sub_zero, hidx, List.getElem?_cons_succ]
    simp [maskBytes, hi]

/-- Unmasking a short frame in place gives the payload back. -/
theorem HoldsShort.decode {stream : Memory} {key : Key} {payload : List UInt8}
    (h : HoldsShort stream key payload) (length : Int) :
    (decodePacket stream length).start = 6 ∧ (decodePacket stream length).ret = payload.length ∧
      (decodePacket stream length).mask = key ∧
      (decodePacket stream length).stream.load 6 payload.length = payload := by
  rw [decodePacket_eq]
  refine ⟨rfl, by simp [h.size], h.mask, ?_⟩
  rw [Memory.load_eq_iff]
  intro i hi
  have hin : 6 ≤ 6 + i ∧ 6 + i < 6 + payload.length := by omega
  simp only [h.size, h.mask, umask_apply, if_pos hin, h.body i hi, Nat.add_sub_cancel_left]
  -- the two xors with the same byte of the key cancel
  rw [UInt8.xor_assoc, UInt8.xor_self, UInt8.xor_zero]

/-! ## Which frames come back -/

/-- What `decode_packet` is for, on the buffer that holds one masked frame: the returned pointer is at
the payload, which stands there in the clear, and the length and the key are reported. -/
structure Inverts (fin : Bool) (opcode : Fin 16) (key : Key) (payload : List UInt8)
    (stream : Memory) (length : Int) : Prop where
  pointer : (decodePacket (stream.store 0 (maskedFrame fin opcode key payload)) length).start =
    payloadStart payload.length
  clear : (decodePacket (stream.store 0 (maskedFrame fin opcode key payload)) length).stream.load
    (payloadStart payload.length) payload.length = payload
  ret : (decodePacket (stream.store 0 (maskedFrame fin opcode key payload)) length).ret =
    payload.length
  mask : (decodePacket (stream.store 0 (maskedFrame fin opcode key payload)) length).mask = key

/-- **Decoding inverts client framing exactly for the short form.** The returned pointer is always
`stream + 6`; a payload of 126 bytes or more starts at `stream + 8` or later, and then the seven length
bits are the mark 126 or 127 and not the length. The content of the buffer behind the frame and the
argument `length` play no part, nor does the size of the buffer. -/
theorem decodePacket_inverts_iff (fin : Bool) (opcode : Fin 16) (key : Key) (payload : List UInt8)
    (stream : Memory) (length : Int) :
    Inverts fin opcode key payload stream length ↔ payload.length < 126 := by
  constructor
  · intro h
    have hstart := h.pointer
    rw [decodePacket_eq] at hstart
    exact (payloadStart_eq_six_iff _).1 hstart.symm
  · intro h
    obtain ⟨hstart, hret, hmask, hclear⟩ :=
      (holdsShort_store h fin opcode key stream).decode length
    have hsix := (payloadStart_eq_six_iff _).2 h
    exact ⟨by rw [hstart, hsix], by rw [hsix, hclear], hret, hmask⟩

/-- Control: a frame of 200 bytes fits the buffer and is read as one of 126 bytes. -/
theorem decodePacket_misreads_200 :
    ¬ ∀ (fin : Bool) (opcode : Fin 16) (key : Key) (payload : List UInt8),
      (maskedFrame fin opcode key payload).length ≤ bufferLength →
        ∀ (stream : Memory) (length : Int), Inverts fin opcode key payload stream length := by
  intro h
  have hlen : (List.replicate 200 (65 : UInt8)).length = 200 := List.length_replicate
  have hfit : (maskedFrame true 1 (fun _ => 7) (List.replicate 200 65)).length ≤ bufferLength := by
    rw [length_maskedFrame, hlen]
    decide
  have hret := (h true 1 (fun _ => 7) (List.replicate 200 65) hfit .zeroed 0).ret
  have hmark := store_maskedFrame_mark (by rw [hlen]; decide) (by rw [hlen]; decide) true 1
    (fun _ => 7) .zeroed
  rw [decodePacket_eq, hlen, hmark] at hret
  exact absurd hret (by decide)

end CppMisc.EpollWebsocket
