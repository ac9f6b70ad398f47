import CppMisc.Library.LittleEndian
import CppMisc.Library.SerialNumbers

/-!
# Segments on the wire (src/kcp_learn/ikcp.c)

A segment is a header of `IKCP_OVERHEAD` bytes with `len` bytes of data behind it, and a datagram is any
number of segments one after another. `encodeSeg` writes a header and `decodeHeader` reads one, word by
word in the order of the source.

Every header can be read back (`decodeHeader_encode`), and every 24 bytes are the header that
`decodeHeader` finds in them (`encode_decodeHeader`).
-/

set_option autoImplicit false

namespace CppMisc.Kcp

open CppMisc.Library

abbrev Bytes := List UInt8

/-! ## Constants -/

def rtoNdl : Int32 := 30
def rtoMin : Int32 := 100
def rtoDef : Int32 := 200
def rtoMax : UInt32 := 60000
def cmdPush : UInt32 := 81
def cmdAck : UInt32 := 82
def cmdWask : UInt32 := 83
def cmdWins : UInt32 := 84
def askSend : UInt32 := 1
def askTell : UInt32 := 2
def wndSnd : UInt32 := 32
def wndRcv : UInt32 := 128
def mtuDef : Nat := 1400
def defInterval : UInt32 := 100
def overhead : Nat := 24
def deadLinkDef : UInt32 := 20
def threshInit : UInt32 := 2
def threshMin : UInt32 := 2
def probeInit : UInt32 := 7000
def probeLimit : UInt32 := 120000
def fastackLimit : Int32 := 5

/-! ## Words -/

def encode8u (c : UInt8) : Bytes := [c]

def encode16u (w : UInt16) : Bytes := leBytes 2 w.toNat

def encode32u (l : UInt32) : Bytes := leBytes 4 l.toNat

def decode8u (p : Bytes) : UInt8 × Bytes := (UInt8.ofNat (leValue (p.take 1)), p.drop 1)

def decode16u (p : Bytes) : UInt16 × Bytes := (UInt16.ofNat (leValue (p.take 2)), p.drop 2)

def decode32u (p : Bytes) : UInt32 × Bytes := (UInt32.ofNat (leValue (p.take 4)), p.drop 4)

def imin (a b : UInt32) : UInt32 := if a ≤ b then a else b

def imax (a b : UInt32) : UInt32 := if a ≥ b then a else b

def ibound (lower middle upper : UInt32) : UInt32 := imin (imax lower middle) upper

/-- `_itimediff`. -/
def itimediff (later earlier : UInt32) : Int := serialDiff later earlier

/-! ## Segments -/

/-- `IKCPSEG`; its `len` is the length of `data`. -/
structure Seg where
  conv : UInt32
  cmd : UInt32
  frg : UInt32
  wnd : UInt32
  ts : UInt32
  sn : UInt32
  una : UInt32
  resendts : UInt32
  rto : UInt32
  fastack : UInt32
  xmit : UInt32
  data : Bytes
  deriving DecidableEq, Repr

/-- `seg->len`. -/
def Seg.len (seg : Seg) : Nat := seg.data.length

/-- The fields of a header as `ikcp_input` reads them into its variables. -/
structure Header where
  conv : UInt32
  cmd : UInt8
  frg : UInt8
  wnd : UInt16
  ts : UInt32
  sn : UInt32
  una : UInt32
  len : UInt32
  deriving DecidableEq, Repr

def Header.encode (h : Header) : Bytes :=
  encode32u h.conv ++ encode8u h.cmd ++ encode8u h.frg ++ encode16u h.wnd ++ encode32u h.ts ++
    encode32u h.sn ++ encode32u h.una ++ encode32u h.len

/-- The header of a segment, with the casts of `ikcp_encode_seg`. -/
def Seg.header (seg : Seg) : Header where
  conv := seg.conv
  cmd := seg.cmd.toUInt8
  frg := seg.frg.toUInt8
  wnd := seg.wnd.toUInt16
  ts := seg.ts
  sn := seg.sn
  una := seg.una
  len := UInt32.ofNat seg.len

/-- `ikcp_encode_seg`. -/
def encodeSeg (seg : Seg) : Bytes := seg.header.encode

/-- The eight words that `ikcp_input` decodes at the front of what is left of a datagram. -/
def decodeHeader (data : Bytes) : Header × Bytes :=
  let (conv, data) := decode32u data
  let (cmd, data) := decode8u data
  let (frg, data) := decode8u data
  let (wnd, data) := decode16u data
  let (ts, data) := decode32u data
  let (sn, data) := decode32u data
  let (una, data) := decode32u data
  let (len, data) := decode32u data
  (⟨conv, cmd, frg, wnd, ts, sn, una, len⟩, data)

/-- `ikcp_getconv`. -/
def getconv (ptr : Bytes) : UInt32 := (decode32u ptr).1

@[simp] theorem length_encode8u (c : UInt8) : (encode8u c).length = 1 := rfl

@[simp] theorem length_encode16u (w : UInt16) : (encode16u w).length = 2 := length_leBytes 2 w.toNat

@[simp] theorem length_encode32u (l : UInt32) : (encode32u l).length = 4 := length_leBytes 4 l.toNat

@[simp] theorem Header.length_encode (h : Header) : h.encode.length = overhead := by
  simp [Header.encode, overhead]

@[simp] theorem length_encodeSeg (seg : Seg) : (encodeSeg seg).length = overhead :=
  seg.header.length_encode

@[simp] theorem decode8u_encode (c : UInt8) (rest : Bytes) :
    decode8u (encode8u c ++ rest) = (c, rest) := by
  simp [decode8u, encode8u, leValue]

@[simp] theorem decode16u_encode (w : UInt16) (rest : Bytes) :
    decode16u (encode16u w ++ rest) = (w, rest) := by
  have hvalue : leValue (encode16u w) = w.toNat := leValue_leBytes w.toNat_lt
  have hlength := length_encode16u w
  rw [decode16u, ← hlength, List.take_left, List.drop_left, hvalue, UInt16.ofNat_toNat]

@[simp] theorem decode32u_encode (l : UInt32) (rest : Bytes) :
    decode32u (encode32u l ++ rest) = (l, rest) := by
  have hvalue : leValue (encode32u l) = l.toNat := leValue_leBytes l.toNat_lt
  have hlength := length_encode32u l
  rw [decode32u, ← hlength, List.take_left, List.drop_left, hvalue, UInt32.ofNat_toNat]

/-- A header is read back as it was written, whatever stands behind it. -/
theorem decodeHeader_encode (h : Header) (rest : Bytes) :
    decodeHeader (h.encode ++ rest) = (h, rest) := by
  simp only [Header.encode, List.append_assoc, decodeHeader, decode8u_encode, decode16u_encode,
    decode32u_encode]

theorem encode8u_decode {p : Bytes} (h : 1 ≤ p.length) :
    encode8u (decode8u p).1 ++ (decode8u p).2 = p := by
  cases p with
  | nil => simp at h
  | cons b p => simp [encode8u, decode8u, leValue]

theorem encode16u_decode {p : Bytes} (h : 2 ≤ p.length) :
    encode16u (decode16u p).1 ++ (decode16u p).2 = p := by
  have hlength : (p.take 2).length = 2 := List.length_take_of_le h
  have hvalue := leValue_lt (p.take 2)
  rw [hlength] at hvalue
  have hbytes : encode16u (decode16u p).1 = p.take 2 := by
    calc encode16u (decode16u p).1 = leBytes 2 (leValue (p.take 2)) := by
          rw [decode16u, encode16u, UInt16.toNat_ofNat_of_lt' hvalue]
      _ = leBytes (p.take 2).length (leValue (p.take 2)) := by rw [hlength]
      _ = p.take 2 := leBytes_leValue _
  rw [hbytes]
  exact List.take_append_drop 2 p

theorem encode32u_decode {p : Bytes} (h : 4 ≤ p.length) :
    encode32u (decode32u p).1 ++ (decode32u p).2 = p := by
  have hlength : (p.take 4).length = 4 := List.length_take_of_le h
  have hvalue := leValue_lt (p.take 4)
  rw [hlength] at hvalue
  have hbytes : encode32u (decode32u p).1 = p.take 4 := by
    calc encode32u (decode32u p).1 = leBytes 4 (leValue (p.take 4)) := by
          rw [decode32u, encode32u, UInt32.toNat_ofNat_of_lt' hvalue]
      _ = leBytes (p.take 4).length (leValue (p.take 4)) := by rw [hlength]
      _ = p.take 4 := leBytes_leValue _
  rw [hbytes]
  exact List.take_append_drop 4 p

/-- What stands in front of the rest of a datagram is the header that was read from it. -/
theorem encode_decodeHeader {data : Bytes} (h : overhead ≤ data.length) :
    (decodeHeader data).1.encode ++ (decodeHeader data).2 = data := by
  rw [overhead] at h
  have hconv : 4 ≤ data.length := by omega
  simp only [decodeHeader, Header.encode, List.append_assoc]
  rw [encode32u_decode, encode32u_decode, encode32u_decode, encode32u_decode, encode16u_decode,
    encode8u_decode, encode8u_decode, encode32u_decode hconv] <;>
    simp only [decode8u, decode16u, decode32u, List.length_drop] <;> omega

theorem imin_toNat (a b : UInt32) : (imin a b).toNat = min a.toNat b.toNat := by
  rw [imin]
  split
  · rename_i h
    exact (Nat.min_eq_left (UInt32.le_iff_toNat_le.1 h)).symm
  · rename_i h
    rw [UInt32.le_iff_toNat_le] at h
    omega

theorem imax_toNat (a b : UInt32) : (imax a b).toNat = max a.toNat b.toNat := by
  rw [imax]
  split
  · rename_i h
    exact (Nat.max_eq_left (UInt32.le_iff_toNat_le.1 h)).symm
  · rename_i h
    rw [ge_iff_le, UInt32.le_iff_toNat_le] at h
    omega

theorem ibound_toNat (lower middle upper : UInt32) :
    (ibound lower middle upper).toNat = min (max lower.toNat middle.toNat) upper.toNat := by
  rw [ibound, imin_toNat, imax_toNat]

end CppMisc.Kcp
