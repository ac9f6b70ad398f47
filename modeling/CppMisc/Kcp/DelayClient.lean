import CppMisc.Kcp.EchoServer
import CppMisc.KcpClient.Model

/-!
# The delay test over `ikcp.c` (src/kcp_learn/client.c, src/kcp_learn/delay.c)

`delay_test2` runs against the echo server, with the engine of both sides and the network between them as they are.
Its objects lie in memory as they are sent: `view` reads the fields of one.

Apart from the engine this is what `KcpClient.delayTest2` describes, where the echoes are taken to come back intact
and in the order of sending. They do so here (`refines_delayTest2`): the test never ends early, each echo that it
reads is the next object that it sent, and the table that it prints is the one that `KcpClient.delayTest2` computes
from the times of its iterations.
-/

set_option autoImplicit false

namespace CppMisc.Kcp

open CppMisc.Library

universe u

/-- `DELAY_TEST2_N`. -/
def delayTest2N : Nat := 5

/-! ## Objects in memory -/

/-- `sizeof(t_delay_obj)`: the number and what aligns the times behind it, the times, the body and what aligns the
next object. -/
def objSize : Nat := 1328

def encodeTime (t : Int64) : Bytes := leBytes 8 t.toUInt64.toNat

def decodeTime (bs : Bytes) : Int64 := (UInt64.ofNat (leValue bs)).toInt64

/-- `delay_set_seqno_send_time`, at the time `now`. -/
def delaySetSeqnoSendTime (obj : Bytes) (seqno : Nat) (now : Int64) : Bytes :=
  patch (patch obj 0 (encode16u (UInt16.ofNat seqno))) 8 (encodeTime now)

/-- `delay_set_recv_time`, at the time `now`. -/
def delaySetRecvTime (obj : Bytes) (now : Int64) : Bytes := patch obj 16 (encodeTime now)

/-- The fields of an object. -/
def view (obj : Bytes) : KcpClient.DelayObj where
  seqno := UInt16.ofNat (leValue (field obj 0 2))
  sendTime := (decodeTime (field obj 8 8)).toInt
  recvTime := (decodeTime (field obj 16 8)).toInt

@[simp] theorem length_encodeTime (t : Int64) : (encodeTime t).length = 8 := length_leBytes 8 t.toUInt64.toNat

@[simp] theorem decodeTime_encodeTime (t : Int64) : decodeTime (encodeTime t) = t := by
  rw [decodeTime, encodeTime, leValue_leBytes t.toUInt64.toNat_lt, UInt64.ofNat_toNat, Int64.toInt64_toUInt64]

theorem length_delaySetSeqnoSendTime {obj : Bytes} (h : obj.length = objSize) (seqno : Nat) (now : Int64) :
    (delaySetSeqnoSendTime obj seqno now).length = objSize := by
  have hsize : (24 : Nat) ≤ objSize := by decide
  have hfirst : (patch obj 0 (encode16u (UInt16.ofNat seqno))).length = obj.length :=
    length_patch (by rw [length_encode16u]; omega)
  rw [delaySetSeqnoSendTime, length_patch (by rw [length_encodeTime, hfirst]; omega), hfirst, h]

theorem length_delaySetRecvTime {obj : Bytes} (h : obj.length = objSize) (now : Int64) :
    (delaySetRecvTime obj now).length = objSize := by
  have hsize : (24 : Nat) ≤ objSize := by decide
  rw [delaySetRecvTime, length_patch (by rw [length_encodeTime]; omega), h]

theorem view_delaySetSeqnoSendTime {obj : Bytes} (h : obj.length = objSize) (seqno : Nat) (now : Int64) :
    view (delaySetSeqnoSendTime obj seqno now) =
      KcpClient.delaySetSeqnoSendTime (view obj) seqno now.toInt := by
  have hsize : (24 : Nat) ≤ objSize := by decide
  have hword := length_encode16u (UInt16.ofNat seqno)
  have htime := length_encodeTime now
  have hfirst : (patch obj 0 (encode16u (UInt16.ofNat seqno))).length = obj.length :=
    length_patch (by rw [hword]; omega)
  have hseqno : field (delaySetSeqnoSendTime obj seqno now) 0 2 = encode16u (UInt16.ofNat seqno) := by
    rw [delaySetSeqnoSendTime, field_patch_of_le (by decide) (by omega), ← hword]
    exact field_patch (Nat.zero_le _)
  have hsend : field (delaySetSeqnoSendTime obj seqno now) 8 8 = encodeTime now := by
    have hread : field (delaySetSeqnoSendTime obj seqno now) 8 (encodeTime now).length = encodeTime now :=
      field_patch (by omega)
    rwa [htime] at hread
  have hrecv : field (delaySetSeqnoSendTime obj seqno now) 16 8 = field obj 16 8 := by
    rw [delaySetSeqnoSendTime, field_patch_of_ge (by omega) (by omega), field_patch_of_ge (by omega) (by omega)]
  have hvalue : leValue (encode16u (UInt16.ofNat seqno)) = (UInt16.ofNat seqno).toNat :=
    leValue_leBytes (UInt16.ofNat seqno).toNat_lt
  rw [view, hseqno, hsend, hrecv, hvalue, UInt16.ofNat_toNat, decodeTime_encodeTime]
  rfl

theorem view_delaySetRecvTime {obj : Bytes} (h : obj.length = objSize) (now : Int64) :
    view (delaySetRecvTime obj now) = KcpClient.delaySetRecvTime (view obj) now.toInt := by
  have hsize : (24 : Nat) ≤ objSize := by decide
  have htime := length_encodeTime now
  have hseqno : field (delaySetRecvTime obj now) 0 2 = field obj 0 2 :=
    field_patch_of_le (by decide) (by omega)
  have hsend : field (delaySetRecvTime obj now) 8 8 = field obj 8 8 :=
    field_patch_of_le (by decide) (by omega)
  have hrecv : field (delaySetRecvTime obj now) 16 8 = encodeTime now := by
    have hread : field (patch obj 16 (encodeTime now)) 16 (encodeTime now).length = encodeTime now :=
      field_patch (by omega)
    rwa [htime] at hread
  rw [view, hseqno, hsend, hrecv, decodeTime_encodeTime]
  rfl

theorem view_update (objs : Nat → Bytes) (i : Nat) (obj : Bytes) :
    (fun k => view (Function.update objs i obj k)) = Function.update (fun k => view (objs k)) i (view obj) := by
  funext k
  rcases eq_or_ne k i with rfl | hk
  · rw [Function.update_self, Function.update_self]
  · rw [Function.update_of_ne hk, Function.update_of_ne hk]

/-! ## The program -/

/-- Where `delay_test2` is. -/
inductive DelayPhase where
  | sending
  | waiting
  /-- The table is printed. -/
  | printed
  /-- A `return` in front of that. -/
  | failed
  deriving DecidableEq, Repr

/-- The client with the server and the network. `sends` and `waits` describe the iterations of the two loops. -/
structure DelayNet (A : Type u) where
  echo : EchoNet A
  objs : Nat → Bytes
  recvObjs : Nat
  i : Nat
  phase : DelayPhase
  sends : List KcpClient.Iteration
  waits : List (Option Int)

/-- What the clock and `recvfrom` return in an iteration of the client. -/
structure DelayReadings where
  sendTime : Int64
  clock : UInt32
  datagram : Option Bytes
  recvTime : Int64

inductive DelayAction (A : Type u) where
  | client (r : DelayReadings)
  | serve (i : KcpServer.Iteration A)

namespace DelayNet

variable {A : Type u}

/-- `ikcp_recv` into the object `i`, and what both loops do with an echo. The result is what `ikcp_recv` returns when
it reads one. -/
def readEcho (s : DelayNet A) (now : Int64) : DelayNet A × Option Int :=
  let o := s.echo.client.call (.recv objSize)
  let s := { s with echo := s.echo.call (.recv objSize) }
  if o.rc < 0 then (s, none)
  else
    let objs := Function.update s.objs s.i (patch (s.objs s.i) 0 o.data)
    ({ s with
        objs := Function.update objs s.recvObjs (delaySetRecvTime (objs s.recvObjs) now)
        recvObjs := s.recvObjs + 1 }, some o.rc)

/-- What both loops do with a datagram. -/
def receive (s : DelayNet A) (r : DelayReadings) : DelayNet A × Option Int :=
  match r.datagram with
  | none => (s, none)
  | some buf =>
      let rc := (input s.echo.client buf).2
      let s := { s with echo := s.echo.arrive buf }
      if rc < 0 then (s, none) else s.readEcho r.recvTime

/-- An iteration of the sending loop, or its end. -/
def sending (s : DelayNet A) (r : DelayReadings) : DelayNet A :=
  if s.i < delayTest2N then
    let obj := delaySetSeqnoSendTime (s.objs s.i) s.i r.sendTime
    let rc := (s.echo.client.call (.send obj)).rc
    let s := { s with objs := Function.update s.objs s.i obj, echo := s.echo.call (.send obj) }
    if rc < 0 then { s with phase := .failed }
    else
      match receive { s with echo := s.echo.call (.update r.clock) } r with
      | (s, none) => { s with i := s.i + 1, sends := s.sends ++ [⟨r.sendTime.toInt, none⟩] }
      | (s, some ret) =>
          if ret ≠ objSize then { s with phase := .failed }
          else { s with i := s.i + 1, sends := s.sends ++ [⟨r.sendTime.toInt, some r.recvTime.toInt⟩] }
  else { s with i := s.recvObjs, phase := .waiting }

/-- An iteration of the waiting loop, or its end. -/
def waiting (s : DelayNet A) (r : DelayReadings) : DelayNet A :=
  if s.i < delayTest2N then
    match receive { s with echo := s.echo.call (.update r.clock) } r with
    | (s, none) => { s with waits := s.waits ++ [none] }
    | (s, some ret) =>
        if ret ≠ objSize then { s with phase := .failed }
        else { s with i := s.i + 1, waits := s.waits ++ [some r.recvTime.toInt] }
  else { s with echo := s.echo.call .flush, phase := .printed }

/-- What `recvfrom` may return. -/
def Received (s : DelayNet A) (r : DelayReadings) : Prop :=
  ∀ buf ∈ r.datagram, Net.Live.Arrives s.echo.net .one buf

instance (s : DelayNet A) (r : DelayReadings) : Decidable (s.Received r) :=
  inferInstanceAs (Decidable (∀ buf ∈ r.datagram, Net.Live.Arrives s.echo.net .one buf))

def step (s : DelayNet A) : DelayAction A → Option (DelayNet A)
  | .client r =>
      if s.Received r then
        match s.phase with
        | .sending => some (s.sending r)
        | .waiting => some (s.waiting r)
        | .printed => none
        | .failed => none
      else none
  | .serve i => (s.echo.step (.serve i)).map fun echo => { s with echo := echo }

/-- `main` of the client in front of the first loop: `junk` is what `malloc` returns. -/
def start (cientAddr : A) (serverClock : Nat) (clock : UInt32) (junk : Nat → Vector UInt8 objSize) : DelayNet A where
  echo := ((((EchoNet.start cientAddr serverClock).call (.nodelay 0 10 0 0)).call (.wndsize 128 128)).call
    (.setmtu 1400)).call (.update clock)
  objs := fun k => (junk k).toList
  recvObjs := 0
  i := 0
  phase := .sending
  sends := []
  waits := []

/-! ## One iteration -/

/-- The variables of `KcpClient.delayTest2`. -/
def state (s : DelayNet A) : KcpClient.State where
  objs := fun k => view (s.objs k)
  sent := s.echo.accepted.map view
  recvObjs := s.recvObjs

/-- The endpoints are alive, the objects have their size, and what was read is counted. -/
structure Sized (n : Nat) (s : DelayNet A) : Prop where
  alive : s.echo.Alive n
  objs : ∀ k, (s.objs k).length = objSize
  sent : ∀ m ∈ s.echo.accepted, m.length = objSize
  read : s.echo.delivered.length = s.recvObjs

variable {s : DelayNet A} {n : Nat}

/-- What is read is the next echo. -/
theorem Sized.next (h : s.Sized (n + 1)) (hread : 0 ≤ (s.echo.client.call (.recv objSize)).rc) :
    s.echo.accepted[s.recvObjs]? = some (s.echo.client.call (.recv objSize)).data ∧
      (s.echo.client.call (.recv objSize)).rc = objSize := by
  generalize ho : s.echo.client.call (.recv objSize) = o at hread
  have hdelivered : (s.echo.call (.recv objSize)).delivered = s.echo.delivered ++ [o.data] := by
    simp [EchoNet.call, deliveredBy, ho, hread]
  have halive := h.alive.call (.recv objSize)
  have hprefix : s.echo.delivered ++ [o.data] <+: s.echo.accepted := by
    have hback : (s.echo.call (.recv objSize)).delivered <+: s.echo.server.passed := halive.live.prefixes .two
    have hsent : s.echo.server.passed <+: s.echo.accepted := h.alive.live.prefixes .one
    rw [hdelivered] at hback
    exact hback.trans hsent
  obtain ⟨rest, hrest⟩ := id hprefix
  have hnext : s.echo.accepted[s.recvObjs]? = some o.data := by
    rw [← hrest, List.append_assoc, ← h.read, List.getElem?_append_right le_rfl, Nat.sub_self]
    rfl
  refine ⟨hnext, ?_⟩
  have hlength : o.data.length = objSize := h.sent _ (List.mem_of_getElem? hnext)
  have hrc : o.rc = o.data.length := by
    rw [← ho] at hread ⊢
    exact (length_recv_le hread).1
  rw [hrc, hlength]

theorem Sized.arrive (h : s.Sized n) {buf : Bytes} (hbuf : Net.Live.Arrives s.echo.net .one buf) :
    ({ s with echo := s.echo.arrive buf } : DelayNet A).Sized n :=
  ⟨h.alive.arrive hbuf, h.objs, h.sent, h.read⟩

/-- A call that hands no message over and takes none. -/
theorem Sized.call (h : s.Sized (n + 1)) {c : Call} (hsend : ∀ o, acceptedBy c o = [])
    (hrecv : ∀ o, deliveredBy c o = []) : ({ s with echo := s.echo.call c } : DelayNet A).Sized n where
  alive := h.alive.call c
  objs := h.objs
  sent := by
    show ∀ m ∈ s.echo.accepted ++ acceptedBy c _, m.length = objSize
    rw [hsend, List.append_nil]
    exact h.sent
  read := by
    show (s.echo.delivered ++ deliveredBy c _).length = s.recvObjs
    rw [hrecv, List.append_nil]
    exact h.read

theorem state_call {c : Call} (hsend : ∀ o, acceptedBy c o = []) :
    ({ s with echo := s.echo.call c } : DelayNet A).state = s.state := by
  show KcpClient.State.mk _ ((s.echo.accepted ++ acceptedBy c _).map view) _ = _
  rw [hsend, List.append_nil]
  rfl

/-- What reading does to the client: it reads nothing, or the echo that `KcpClient.receive` takes. -/
def Reads (n : Nat) (s : DelayNet A) (now : Int64) (res : DelayNet A × Option Int) : Prop :=
  (∃ e, res = ({ s with echo := e }, none) ∧
    ({ s with echo := e } : DelayNet A).Sized n ∧ ({ s with echo := e } : DelayNet A).state = s.state) ∨
  ∃ e objs k, res = ({ s with echo := e, objs := objs, recvObjs := k }, some (objSize : Int)) ∧
    ({ s with echo := e, objs := objs, recvObjs := k } : DelayNet A).Sized n ∧
    KcpClient.receive s.state s.i now.toInt =
      some ({ s with echo := e, objs := objs, recvObjs := k } : DelayNet A).state

theorem Sized.reads (h : s.Sized (n + 1)) (now : Int64) : s.Reads n now (s.readEcho now) := by
  have halive := h.alive.call (.recv objSize)
  have haccepted : (s.echo.call (.recv objSize)).accepted = s.echo.accepted := List.append_nil _
  generalize ho : s.echo.client.call (.recv objSize) = o
  by_cases hunread : o.rc < 0
  · have hdelivered : (s.echo.call (.recv objSize)).delivered = s.echo.delivered := by
      simp [EchoNet.call, deliveredBy, ho, not_le.2 hunread]
    refine Or.inl ⟨s.echo.call (.recv objSize), ?_, ⟨halive, h.objs, ?_, ?_⟩, ?_⟩
    · rw [readEcho, ho]
      exact if_pos hunread
    · exact haccepted ▸ h.sent
    · exact hdelivered ▸ h.read
    · simp only [state, haccepted]
  · have hread : 0 ≤ o.rc := not_lt.1 hunread
    obtain ⟨hnext, hsize⟩ := h.next (ho ▸ hread)
    rw [ho] at hnext hsize
    have hlength : o.data.length = objSize := h.sent _ (List.mem_of_getElem? hnext)
    have hdelivered : (s.echo.call (.recv objSize)).delivered = s.echo.delivered ++ [o.data] := by
      simp [EchoNet.call, deliveredBy, ho, hread]
    -- the echo overwrites the object as a whole
    have hpatch : patch (s.objs s.i) 0 o.data = o.data := patch_all (hlength.trans (h.objs s.i).symm)
    have hobjs : ∀ k, (Function.update s.objs s.i o.data k).length = objSize := by
      intro k
      rcases eq_or_ne k s.i with rfl | hk
      · rw [Function.update_self, hlength]
      · rw [Function.update_of_ne hk, h.objs]
    refine Or.inr ⟨s.echo.call (.recv objSize), Function.update (Function.update s.objs s.i o.data) s.recvObjs
      (delaySetRecvTime (Function.update s.objs s.i o.data s.recvObjs) now), s.recvObjs + 1, ?_,
      ⟨halive, ?_, ?_, ?_⟩, ?_⟩
    · rw [readEcho, ho]
      dsimp only
      rw [if_neg hunread, hpatch, hsize]
    · intro k
      dsimp only
      rcases eq_or_ne k s.recvObjs with rfl | hk
      · rw [Function.update_self, length_delaySetRecvTime (hobjs _)]
      · rw [Function.update_of_ne hk, hobjs]
    · exact haccepted ▸ h.sent
    · show (s.echo.call (.recv objSize)).delivered.length = s.recvObjs + 1
      rw [hdelivered, List.length_append, List.length_singleton, h.read]
    · have hecho : (s.echo.accepted.map view)[s.recvObjs]? = some (view o.data) := by
        rw [List.getElem?_map, hnext, Option.map_some]
      simp only [KcpClient.receive, state, hecho, haccepted, view_update, view_delaySetRecvTime (hobjs _)]
      rw [← view_update]

/-- What both loops do with a datagram is reading in this sense. -/
theorem Sized.receives (h : s.Sized (n + 1)) {r : DelayReadings} (hr : s.Received r) :
    s.Reads n r.recvTime (s.receive r) := by
  have hidle : ∀ {t : DelayNet A}, t.Sized (n + 1) → t.Sized n := fun ht =>
    ⟨ht.alive.mono (Nat.le_succ n), ht.objs, ht.sent, ht.read⟩
  unfold receive
  cases hdatagram : r.datagram with
  | none => exact Or.inl ⟨s.echo, rfl, hidle h, rfl⟩
  | some buf =>
      dsimp only
      have harrived := h.arrive (hr buf hdatagram)
      split
      · exact Or.inl ⟨_, rfl, hidle harrived, rfl⟩
      · exact harrived.reads r.recvTime

/-- A probe is accepted, and is what `KcpClient.sendProbe` sends. -/
theorem Sized.probe (h : s.Sized (n + 1)) (now : Int64) :
    let obj := delaySetSeqnoSendTime (s.objs s.i) s.i now
    let t := { s with objs := Function.update s.objs s.i obj, echo := s.echo.call (.send obj) }
    ¬ (s.echo.client.call (.send obj)).rc < 0 ∧ t.Sized n ∧
      t.state = KcpClient.sendProbe s.state s.i now.toInt := by
  intro obj t
  have hobj : obj.length = objSize := length_delaySetSeqnoSendTime (h.objs s.i) s.i now
  have hrc : (s.echo.client.call (.send obj)).rc = 0 := by
    apply send_small (h.alive.live.stream .one)
    have hmtu := (s.echo.net.kcp .one).mtu.ge
    rw [hobj, Ikcpcb.mss, overhead, objSize]
    omega
  have haccepted : t.echo.accepted = s.echo.accepted ++ [obj] := by
    show s.echo.accepted ++ acceptedBy (.send obj) (s.echo.client.call (.send obj)) = _
    rw [acceptedBy, if_pos hrc]
  refine ⟨by rw [hrc]; exact lt_irrefl 0, ⟨h.alive.call _, ?_, ?_, ?_⟩, ?_⟩
  · intro k
    show (Function.update s.objs s.i obj k).length = objSize
    rcases eq_or_ne k s.i with rfl | hk
    · rw [Function.update_self, hobj]
    · rw [Function.update_of_ne hk, h.objs]
  · intro m hm
    rw [haccepted] at hm
    rcases List.mem_append.1 hm with hold | hnew
    · exact h.sent m hold
    · rw [List.mem_singleton.1 hnew, hobj]
  · show (s.echo.delivered ++ []).length = s.recvObjs
    rw [List.append_nil, h.read]
  · simp only [state, haccepted, KcpClient.sendProbe, List.map_append, List.map_cons, List.map_nil]
    simp only [t, view_update, obj, view_delaySetSeqnoSendTime (h.objs s.i)]

/-- What the client does by itself does not matter to what may arrive. -/
theorem Sized.received {t : DelayNet A} {m : Nat} (h : s.Sized n) (ht : t.Sized m)
    (hserver : t.echo.server = s.echo.server) {r : DelayReadings} (hr : s.Received r) : t.Received r := by
  intro buf hbuf
  rcases hr buf hbuf with hsent | hshort | hconv
  · left
    show buf ∈ t.echo.server.sent.map Prod.snd
    rw [hserver]
    exact hsent
  · exact Or.inr (Or.inl hshort)
  · right
    right
    rw [h.alive.live.conv .one] at hconv
    rwa [ht.alive.live.conv .one]

/-- The two loops have done so far what `KcpClient.delayTest2` does. -/
def Agrees (junk : Nat → KcpClient.DelayObj) (s : DelayNet A) : Prop :=
  match s.phase with
  | .sending => s.sends.length = s.i ∧ s.i ≤ delayTest2N ∧ s.waits = [] ∧
      ∀ more, KcpClient.sendLoop (s.sends ++ more) 0 ⟨junk, [], 0⟩ = KcpClient.sendLoop more s.i s.state
  | .waiting => s.sends.length = delayTest2N ∧ ∃ t, KcpClient.sendLoop s.sends 0 ⟨junk, [], 0⟩ = some t ∧
      ∀ more, KcpClient.waitLoop delayTest2N (s.waits ++ more) t.recvObjs t =
        KcpClient.waitLoop delayTest2N more s.i s.state
  | .printed => s.sends.length = delayTest2N ∧ KcpClient.delayTest2 junk s.sends s.waits = some s.state.objs
  | .failed => False

variable {junk : Nat → KcpClient.DelayObj}

theorem Sized.sending (h : s.Sized (n + 3)) {r : DelayReadings} (hr : s.Received r) (hphase : s.phase = .sending)
    (hs : s.Agrees junk) : (s.sending r).Sized n ∧ (s.sending r).Agrees junk := by
  rw [Agrees, hphase] at hs
  obtain ⟨hsends, hle, hwaits, hloop⟩ := hs
  unfold DelayNet.sending
  split
  · rename_i hi
    obtain ⟨haccepted, hprobe, hstate⟩ := h.probe r.sendTime
    dsimp only at haccepted hprobe hstate ⊢
    rw [if_neg haccepted]
    generalize delaySetSeqnoSendTime (s.objs s.i) s.i r.sendTime = obj at hprobe hstate ⊢
    have hupdated := hprobe.call (c := .update r.clock) (fun _ => rfl) fun _ => rfl
    have hsame := (state_call (c := .update r.clock) fun _ => rfl).trans hstate
    obtain ⟨e, heq, hsized, hnext⟩ | ⟨e, objs, k, heq, hsized, hnext⟩ :=
      hupdated.receives (h.received hupdated rfl hr)
    · rw [heq]
      refine ⟨⟨hsized.alive, hsized.objs, hsized.sent, hsized.read⟩, ?_⟩
      dsimp only [Agrees]
      rw [hphase]
      refine ⟨?_, hi, hwaits, fun more => ?_⟩
      · rw [List.length_append, hsends, List.length_singleton]
      · rw [List.append_assoc, hloop, List.singleton_append, KcpClient.sendLoop]
        exact congrArg (KcpClient.sendLoop more (s.i + 1)) (hsame.symm.trans hnext.symm)
    · rw [heq]
      dsimp only
      rw [if_neg (not_not.2 rfl)]
      refine ⟨⟨hsized.alive, hsized.objs, hsized.sent, hsized.read⟩, ?_⟩
      dsimp only [Agrees]
      rw [hphase]
      refine ⟨?_, hi, hwaits, fun more => ?_⟩
      · rw [List.length_append, hsends, List.length_singleton]
      · rw [List.append_assoc, hloop, List.singleton_append, KcpClient.sendLoop]
        rw [hsame] at hnext
        dsimp only at hnext ⊢
        rw [hnext]
        rfl
  · rename_i hend
    refine ⟨⟨h.alive.mono (Nat.le_add_right n 3), h.objs, h.sent, h.read⟩, ?_⟩
    have hall : s.i = delayTest2N := Nat.le_antisymm hle (Nat.le_of_not_lt hend)
    have hnil := hloop []
    rw [List.append_nil] at hnil
    refine ⟨hsends.trans hall, s.state, hnil, fun more => ?_⟩
    rw [hwaits]
    rfl

theorem Sized.waiting (h : s.Sized (n + 2)) {r : DelayReadings} (hr : s.Received r) (hphase : s.phase = .waiting)
    (hs : s.Agrees junk) : (s.waiting r).Sized n ∧ (s.waiting r).Agrees junk := by
  rw [Agrees, hphase] at hs
  obtain ⟨hsends, t, hsent, hloop⟩ := hs
  unfold DelayNet.waiting
  split
  · rename_i hi
    have hupdated := h.call (c := .update r.clock) (fun _ => rfl) fun _ => rfl
    have hsame := state_call (s := s) (c := .update r.clock) fun _ => rfl
    obtain ⟨e, heq, hsized, hnext⟩ | ⟨e, objs, k, heq, hsized, hnext⟩ :=
      hupdated.receives (h.received hupdated rfl hr)
    · rw [heq]
      refine ⟨⟨hsized.alive, hsized.objs, hsized.sent, hsized.read⟩, ?_⟩
      dsimp only [Agrees]
      rw [hphase]
      refine ⟨hsends, t, hsent, fun more => ?_⟩
      rw [List.append_assoc, hloop, List.singleton_append, KcpClient.waitLoop, if_pos hi]
      exact congrArg (KcpClient.waitLoop delayTest2N more s.i) (hsame.symm.trans hnext.symm)
    · rw [heq]
      dsimp only
      rw [if_neg (not_not.2 rfl)]
      refine ⟨⟨hsized.alive, hsized.objs, hsized.sent, hsized.read⟩, ?_⟩
      dsimp only [Agrees]
      rw [hphase]
      refine ⟨hsends, t, hsent, fun more => ?_⟩
      rw [List.append_assoc, hloop, List.singleton_append, KcpClient.waitLoop, if_pos hi]
      rw [hsame] at hnext
      dsimp only at hnext ⊢
      rw [hnext]
      rfl
  · rename_i hend
    have hflushed := h.call (c := .flush) (fun _ => rfl) fun _ => rfl
    refine ⟨⟨hflushed.alive.mono (Nat.le_succ n), hflushed.objs, hflushed.sent, hflushed.read⟩, ?_⟩
    refine ⟨hsends, ?_⟩
    have hnil := hloop []
    rw [List.append_nil, KcpClient.waitLoop, if_neg hend] at hnil
    rw [KcpClient.delayTest2, hsent, Option.bind_some]
    show (KcpClient.waitLoop s.sends.length s.waits t.recvObjs t).map KcpClient.State.objs = some s.state.objs
    rw [hsends, hnil]
    rfl

/-- What holds between the steps. -/
def Kept (junk : Nat → KcpClient.DelayObj) (s : DelayNet A) : Prop := s.Sized 0 ∧ s.Agrees junk

/-- Both sides have room for the numbers of four more calls below `2 ^ 31`. -/
def Roomy (s : DelayNet A) (_ : DelayAction A) : Prop :=
  s.echo.client.sndNxt.toNat + 2 ^ 18 ≤ 2 ^ 31 ∧ s.echo.server.kcp.sndNxt.toNat + 2 ^ 18 ≤ 2 ^ 31

instance (s : DelayNet A) (a : DelayAction A) : Decidable (Roomy s a) :=
  inferInstanceAs (Decidable (_ ∧ _))

theorem kept_of_step {t : DelayNet A} {a : DelayAction A} (h : s.Kept junk) (hroomy : Roomy s a)
    (hstep : step s a = some t) : t.Kept junk := by
  obtain ⟨hidle, hagrees⟩ := h
  have halive : s.echo.Alive 4 := hidle.alive.roomy (a := .serve ⟨0, none⟩) hroomy
  have hsized : s.Sized 4 := ⟨halive, hidle.objs, hidle.sent, hidle.read⟩
  cases a with
  | client r =>
      obtain ⟨hr, hsome⟩ := Option.ite_none_right_eq_some.1 hstep
      cases hphase : s.phase with
      | sending =>
          rw [hphase] at hsome
          obtain rfl := Option.some.inj hsome
          obtain ⟨hnext, hdone⟩ := hsized.sending hr hphase hagrees
          exact ⟨⟨hnext.alive.mono (Nat.zero_le _), hnext.objs, hnext.sent, hnext.read⟩, hdone⟩
      | waiting =>
          rw [hphase] at hsome
          obtain rfl := Option.some.inj hsome
          obtain ⟨hnext, hdone⟩ := hsized.waiting hr hphase hagrees
          exact ⟨⟨hnext.alive.mono (Nat.zero_le _), hnext.objs, hnext.sent, hnext.read⟩, hdone⟩
      | printed =>
          rw [hphase] at hsome
          cases hsome
      | failed =>
          rw [hphase] at hsome
          cases hsome
  | serve i =>
      obtain ⟨echo, hserve, rfl⟩ := Option.map_eq_some_iff.1 hstep
      have hnext := EchoNet.alive_of_step halive hserve
      -- the server does not touch what the client sent and read
      obtain ⟨hr, hmap⟩ := Option.ite_none_right_eq_some.1 hserve
      obtain ⟨server, -, rfl⟩ := Option.map_eq_some_iff.1 hmap
      exact ⟨⟨hnext, hidle.objs, hidle.sent, hidle.read⟩, hagrees⟩

theorem kept_start (cientAddr : A) (serverClock : Nat) (clock : UInt32) (junk : Nat → Vector UInt8 objSize) :
    (start cientAddr serverClock clock junk).Kept fun k => view (junk k).toList := by
  have halive : (start cientAddr serverClock clock junk).echo.Alive 0 :=
    ((((EchoNet.alive_start cientAddr serverClock).call _).call _).call _).call _
  refine ⟨⟨halive, fun k => (junk k).length_toList, fun m hm => absurd hm List.not_mem_nil, rfl⟩, ?_⟩
  exact ⟨rfl, Nat.zero_le _, rfl, fun more => rfl⟩

/-- The delay test never ends early, each echo that it reads is the next object that it sent, in its full size, and
it prints the table of `KcpClient.delayTest2` for the times of its iterations. -/
structure Refines (junk : Nat → Vector UInt8 objSize) (s : DelayNet A) : Prop where
  phase : s.phase ≠ .failed
  echoes : s.echo.delivered <+: s.echo.accepted
  size : ∀ m ∈ s.echo.accepted, m.length = objSize
  read : s.echo.delivered.length = s.recvObjs
  table : s.phase = .printed → s.sends.length = delayTest2N ∧
    KcpClient.delayTest2 (fun k => view (junk k).toList) s.sends s.waits = some fun k => view (s.objs k)

/-- Whatever the network does with the datagrams and whenever the server runs, what `KcpClient` takes KCP to do is
what it does. -/
theorem refines_delayTest2 (cientAddr : A) (serverClock : Nat) (clock : UInt32)
    (junk : Nat → Vector UInt8 objSize) (as : List (DelayAction A))
    (has : EveryStep step Roomy (start cientAddr serverClock clock junk) as) :
    EveryState step (Refines junk) (start cientAddr serverClock clock junk) as := by
  refine everyState_of_everyStep (fun _ _ _ => kept_of_step) ?_ as _
    (kept_start cientAddr serverClock clock junk) has
  rintro s ⟨hsized, hagrees⟩
  have hechoes : s.echo.delivered <+: s.echo.accepted := by
    have hback : s.echo.delivered <+: s.echo.server.passed := hsized.alive.live.prefixes .two
    exact hback.trans (hsized.alive.live.prefixes .one)
  refine ⟨?_, hechoes, hsized.sent, hsized.read, ?_⟩
  · intro hphase
    rw [Agrees, hphase] at hagrees
    exact hagrees
  · intro hphase
    rw [Agrees, hphase] at hagrees
    exact hagrees

/-- The object with a number below 256, sent at a time below 256, in memory that is blank. -/
def probe (seqno sendTime : UInt8) : Bytes :=
  [seqno, 0, 0, 0, 0, 0, 0, 0, sendTime, 0, 0, 0, 0, 0, 0, 0] ++ List.replicate 1312 0

/-- An acknowledgement and a segment with one object, as they stand in a datagram. -/
def ackSegment (ts sn una : UInt32) : Bytes := Header.encode ⟨1, 82, 0, 128, ts, sn, una, 0⟩

def pushSegment (ts sn una : UInt32) (obj : Bytes) : Bytes := Header.encode ⟨1, 81, 0, 128, ts, sn, una, 1328⟩ ++ obj

/-- Two echoes arrive while the client still sends, the other ones while it waits, and it prints the table. -/
def printing : List (DelayAction Nat) :=
  [.client ⟨6, 6, none, 0⟩,
    .client ⟨16, 16, none, 0⟩,
    .serve ⟨18, some (9, pushSegment 16 0 0 (probe 0 6))⟩,
    .client ⟨26, 26, some (ackSegment 16 0 1 ++ pushSegment 18 0 1 (probe 0 6)), 27⟩,
    .client ⟨36, 36, none, 0⟩,
    .serve ⟨38, some (9, ackSegment 18 0 1 ++ pushSegment 36 1 1 (probe 1 16))⟩,
    .serve ⟨48, some (9, pushSegment 36 2 1 (probe 2 26))⟩,
    .client ⟨46, 46, some (ackSegment 36 1 2 ++ pushSegment 38 1 2 (probe 1 16)), 47⟩,
    .client ⟨47, 47, none, 0⟩,
    .client ⟨56, 56, some (ackSegment 36 2 3 ++ pushSegment 48 2 3 (probe 2 26)), 57⟩,
    .client ⟨66, 66, none, 0⟩,
    .serve ⟨68, some (9, ackSegment 38 1 2 ++ pushSegment 56 3 2 (probe 3 36))⟩,
    .serve ⟨78, some (9, ackSegment 48 2 3 ++ pushSegment 66 4 3 (probe 4 46))⟩,
    .client ⟨76, 76, some (ackSegment 56 3 4 ++ pushSegment 68 3 4 (probe 3 36)), 77⟩,
    .client ⟨86, 86, some (ackSegment 66 4 5 ++ pushSegment 78 4 5 (probe 4 46)), 87⟩,
    .client ⟨96, 96, none, 0⟩]

def blank : Nat → Vector UInt8 objSize := fun _ => Vector.replicate objSize 0

theorem refines_delayTest2_printing :
    (run step (start 3 10 5 blank) printing).map (fun s => (s.phase, s.recvObjs)) = some (.printed, 5) ∧
      EveryState step (Refines blank) (start 3 10 5 blank) printing :=
  ⟨by decide +kernel, refines_delayTest2 3 10 5 blank printing (by decide +kernel)⟩

end DelayNet

end CppMisc.Kcp
