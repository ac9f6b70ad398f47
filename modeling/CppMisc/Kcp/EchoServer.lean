import CppMisc.Kcp.Applications
import CppMisc.KcpServer.Model

/-!
# The echo server over `ikcp.c` (src/kcp_learn/server.c, src/kcp_learn/client.c)

`loop` of the server leaves its engine open; here it is `ikcp.c` itself, with the settings of `main`. At the other
end of the network is a client that may make any calls, in message mode and for the same conversation. What the
server gets is a datagram that the client sent at some time, or one that does not belong to the conversation, and
what the client gets was sent by the server to whatever address, or is such a stray one.

As in `Ikcpcb.event`, the assembly buffer of the client is taken to be large enough, whatever mtu it sets. That of
the server always is.

Every iteration of `loop` is a row of moves of the two endpoints, in which each message that is read is sent back,
so that what the client reads is a front part of what it sent (`echo_prefix`).
-/

set_option autoImplicit false

namespace CppMisc.Kcp

open CppMisc.Library

universe u

/-- The functions of `ikcp.c` that `loop` calls. -/
def engine : KcpServer.Engine Ikcpcb where
  update := fun kcp clock => update kcp (UInt32.ofNat clock)
  input := input
  recv := fun kcp n =>
    let (kcp, rc, data) := recv kcp n
    (kcp, if rc < 0 then .error rc else .ok data)
  send := fun kcp msg => send kcp msg msg.length
  flush := flush

/-- The control block that `main` of the server hands to `loop`. -/
def serverKcp : Ikcpcb :=
  wndsize (setNodelay (setmtu (create 1) 1400).1 0 10 0 0) 128 128

/-- The server and a client: `wire` are the datagrams that the client gave to `output`, `accepted` and `delivered`
the messages that it sent and that it read. -/
structure EchoNet (A : Type u) where
  server : KcpServer.Server Ikcpcb A
  client : Ikcpcb
  wire : List Bytes
  accepted : List Bytes
  delivered : List Bytes

inductive EchoAction (A : Type u) where
  | call (c : Call)
  | arrive (data : Bytes)
  | serve (i : KcpServer.Iteration A)

namespace EchoNet

variable {A : Type u}

/-- The two endpoints and what is between them: `kcp1` is that of the client. -/
def net (s : EchoNet A) : Net where
  kcp := sides s.client s.server.kcp
  wire := sides s.wire (s.server.sent.map Prod.snd)
  accepted := sides s.accepted s.server.passed
  delivered := sides s.delivered s.server.passed

/-- The client makes a call. -/
def call (s : EchoNet A) (c : Call) : EchoNet A :=
  let o := s.client.call c
  { s with
    client := o.kcp
    wire := s.wire ++ o.datagrams
    accepted := s.accepted ++ acceptedBy c o
    delivered := s.delivered ++ deliveredBy c o }

/-- A datagram arrives at the client. -/
def arrive (s : EchoNet A) (data : Bytes) : EchoNet A := { s with client := (input s.client data).1 }

/-- What `recvfrom` may return. -/
def Received (s : EchoNet A) (i : KcpServer.Iteration A) : Prop :=
  ∀ p ∈ i.datagram, Net.Live.Arrives s.net .two p.2

instance (s : EchoNet A) (i : KcpServer.Iteration A) : Decidable (s.Received i) :=
  inferInstanceAs (Decidable (∀ p ∈ i.datagram, Net.Live.Arrives s.net .two p.2))

def step (s : EchoNet A) : EchoAction A → Option (EchoNet A)
  | .call c => some (s.call c)
  | .arrive data =>
      if Net.Live.Arrives s.net .one data then some (s.arrive data) else none
  | .serve i =>
      if s.Received i then (KcpServer.step engine s.server i).map fun server => { s with server := server }
      else none

/-- The client is created, and `loop` is entered at the given clock reading. -/
def start (cientAddr : A) (clock : Nat) : EchoNet A where
  server := KcpServer.start engine serverKcp cientAddr clock
  client := create 1
  wire := []
  accepted := []
  delivered := []

/-! ## The moves of an iteration -/

variable {s t : EchoNet A}

theorem net_call (s : EchoNet A) (c : Call) : (s.call c).net = s.net.call .one c := by
  simp [EchoNet.call, net, Net.call]

theorem net_arrive (s : EchoNet A) (data : Bytes) : (s.arrive data).net = s.net.arrive .one data := by
  simp [EchoNet.arrive, net, Net.arrive]

/-- The server with another control block, `k`, and packets that it sends. -/
def served (s : EchoNet A) (server : KcpServer.Server Ikcpcb A) : EchoNet A := { s with server := server }

theorem net_update (s : EchoNet A) (clock : Nat) :
    (s.served (KcpServer.update engine s.server clock)).net =
      s.net.call .two (.update (UInt32.ofNat clock)) := by
  simp [served, net, Net.call, KcpServer.update, KcpServer.udpOutput, engine, Ikcpcb.call, acceptedBy, deliveredBy,
    Function.comp_def]

/-- What `loop` does with a datagram is its arrival and at most three calls: the message that is read is sent back
as a whole. -/
theorem net_receive {s : EchoNet A} {buf : Bytes} (hlength : buf.length ≤ KcpServer.recvBuf)
    (hmode : (input s.server.kcp buf).1.stream = 0) (hmtu : s.server.kcp.mtu.value = 1400) :
    ∃ cs : List Call, cs.length ≤ 3 ∧ (∀ c ∈ cs, ∀ m, c ≠ .setmtu m) ∧
      (s.served (KcpServer.receive engine s.server buf)).net = (s.net.arrive .two buf).calls .two cs := by
  by_cases hrejected : (input s.server.kcp buf).2 < 0
  · refine ⟨[], Nat.zero_le _, fun c hc => absurd hc List.not_mem_nil, ?_⟩
    have hrefused : (engine.input s.server.kcp buf).2 < 0 := hrejected
    rw [KcpServer.receive_rejected hrefused]
    simp [served, net, Net.calls, Net.arrive, engine]
  · have hmss : (input s.server.kcp buf).1.mss = 1376 := by
      rw [Ikcpcb.mss, (Shrinks.input s.server.kcp buf).mtu, hmtu]
      rfl
    generalize hk : (input s.server.kcp buf).1 = k at hmode hmss
    by_cases hunread : (recv k buf.length).2.1 < 0
    · refine ⟨[.recv buf.length], show 1 ≤ 3 by decide, ?_, ?_⟩
      · intro c hc m
        rw [List.mem_singleton.1 hc]
        exact Call.noConfusion
      · have hread : ¬ 0 ≤ (recv k buf.length).2.1 := not_le.2 hunread
        simp [served, KcpServer.receive, net, Net.calls, Net.arrive, Net.call, Ikcpcb.call, acceptedBy,
          deliveredBy, engine, hrejected, hk, hunread, hread]
    · have hread : 0 ≤ (recv k buf.length).2.1 := not_lt.1 hunread
      -- the message is no longer than the datagram, so that two fragments are enough for it
      obtain ⟨-, hle⟩ := length_recv_le hread
      have hsent : (send (recv k buf.length).1 (recv k buf.length).2.2 (recv k buf.length).2.2.length).2 = 0 := by
        have hview := view_recv k buf.length
        have hstream : (recv k buf.length).1.stream = 0 := (congrArg View.stream hview).trans hmode
        have hsame : (recv k buf.length).1.mss = 1376 := by
          have hsize : (recv k buf.length).1.mtu = k.mtu := congrArg View.mtu hview
          rw [Ikcpcb.mss, hsize, ← hmss]
          rfl
        apply send_small hstream
        rw [hsame]
        rw [KcpServer.recvBuf] at hlength
        have habs : |(buf.length : Int)| = buf.length := Nat.abs_cast _
        omega
      refine ⟨[.recv buf.length, .send (recv k buf.length).2.2, .flush], le_rfl, ?_, ?_⟩
      · intro c hc m
        simp only [List.mem_cons, List.not_mem_nil, or_false] at hc
        rcases hc with rfl | rfl | rfl <;> exact Call.noConfusion
      · simp [served, KcpServer.receive, KcpServer.reply, KcpServer.udpOutput, net, Net.calls, Net.arrive, Net.call,
          Ikcpcb.call, acceptedBy, deliveredBy, engine, hrejected, hk, hunread, hread, hsent, Function.comp_def]

theorem length_le_of_step {e : KcpServer.Engine Ikcpcb} {server server' : KcpServer.Server Ikcpcb A}
    {i : KcpServer.Iteration A} {src : A} {buf : Bytes} (h : KcpServer.step e server i = some server')
    (hd : i.datagram = some (src, buf)) : buf.length ≤ KcpServer.recvBuf := by
  by_contra hlong
  simp [KcpServer.step, hd, hlong] at h

/-- The endpoints are alive, and the server has the size that `main` sets. -/
structure Alive (n : Nat) (s : EchoNet A) : Prop where
  live : s.net.Live 1 n
  mtu : s.server.kcp.mtu.value = 1400

theorem Alive.call {n : Nat} (h : s.Alive (n + 1)) (c : Call) : (s.call c).Alive n :=
  ⟨net_call s c ▸ h.live.call .one c, h.mtu⟩

theorem Alive.arrive {n : Nat} {data : Bytes} (h : s.Alive n) (hdata : Net.Live.Arrives s.net .one data) :
    (s.arrive data).Alive n :=
  ⟨net_arrive s data ▸ h.live.arrive hdata, h.mtu⟩

theorem Alive.mono {m n : Nat} (h : s.Alive n) (hm : m ≤ n) : s.Alive m := ⟨h.live.mono hm, h.mtu⟩

/-- An iteration is at most four calls and an arrival. -/
theorem Alive.serve {i : KcpServer.Iteration A} {server : KcpServer.Server Ikcpcb A} (h : s.Alive 4) (hreceived : s.Received i)
    (hstep : KcpServer.step engine s.server i = some server) : (s.served server).Alive 0 := by
  have hupdated : (s.served (KcpServer.update engine s.server i.clock)).Alive 3 := by
    have hnet := s.net_update i.clock
    refine ⟨hnet ▸ h.live.call .two _, ?_⟩
    have hcall : ∀ m, Call.update (UInt32.ofNat i.clock) ≠ .setmtu m := fun m => Call.noConfusion
    have hmtu := mtu_call s.net .two hcall .two
    rw [← hnet] at hmtu
    exact (congrArg Mtu.value hmtu).trans h.mtu
  have hidle : (s.served (KcpServer.update engine s.server i.clock)).Alive 0 :=
    ⟨hupdated.live.mono (Nat.zero_le _), hupdated.mtu⟩
  cases hd : i.datagram with
  | none =>
      rw [KcpServer.step_idle hstep hd]
      exact hidle
  | some p =>
      obtain ⟨src, buf⟩ := p
      by_cases hempty : buf = []
      · subst hempty
        rw [KcpServer.step_ended hstep hd]
        exact ⟨hidle.live, hidle.mtu⟩
      · rw [KcpServer.step_received hstep hd hempty]
        -- the address does not matter to the endpoints
        generalize hu : s.served { KcpServer.update engine s.server i.clock with cientAddr := src } = u
        have halive : u.Alive 3 := hu ▸ ⟨hupdated.live, hupdated.mtu⟩
        have harrives : Net.Live.Arrives u.net .two buf := by
          have hold := hreceived (src, buf) (hd ▸ rfl)
          rcases hold with hsent | hshort | hconv
          · exact Or.inl (hu ▸ hsent)
          · exact Or.inr (Or.inl hshort)
          · rw [h.live.conv .two] at hconv
            exact Or.inr (Or.inr (by rwa [halive.live.conv .two]))
        have harrived := halive.live.arrive harrives
        obtain ⟨cs, hfew, hsizes, hnet⟩ := net_receive (length_le_of_step hstep hd) (harrived.stream .two) halive.mtu
        have hserver : s.served (KcpServer.receive engine
            { KcpServer.update engine s.server i.clock with cientAddr := src } buf) =
            u.served (KcpServer.receive engine u.server buf) := by
          rw [← hu]
          rfl
        rw [hserver]
        refine ⟨?_, ?_⟩
        · rw [hnet]
          exact (harrived.mono (by omega)).calls
        · have hmtu := (mtu_calls .two hsizes .two (u.net.arrive .two buf)).trans (mtu_arrive u.net .two buf .two)
          rw [← hnet] at hmtu
          exact (congrArg Mtu.value hmtu).trans halive.mtu

/-- So does everything else that happens. -/
theorem alive_of_step {a : EchoAction A} (h : s.Alive 4) (hstep : step s a = some t) : t.Alive 0 := by
  cases a with
  | call c =>
      obtain rfl := Option.some.inj hstep
      exact (h.call c).mono (Nat.zero_le _)
  | arrive data =>
      obtain ⟨hdata, hsome⟩ := Option.ite_none_right_eq_some.1 hstep
      obtain rfl := Option.some.inj hsome
      exact (h.arrive hdata).mono (Nat.zero_le _)
  | serve i =>
      obtain ⟨hreceived, hmap⟩ := Option.ite_none_right_eq_some.1 hstep
      obtain ⟨server, hserver, rfl⟩ := Option.map_eq_some_iff.1 hmap
      exact h.serve hreceived hserver

/-- Both sides have room for the numbers of four more calls below `2 ^ 31`. -/
def Roomy (s : EchoNet A) (_ : EchoAction A) : Prop :=
  s.client.sndNxt.toNat + 2 ^ 18 ≤ 2 ^ 31 ∧ s.server.kcp.sndNxt.toNat + 2 ^ 18 ≤ 2 ^ 31

instance (s : EchoNet A) (a : EchoAction A) : Decidable (Roomy s a) :=
  inferInstanceAs (Decidable (_ ∧ _))

theorem Alive.roomy {a : EchoAction A} (h : s.Alive 0) (hroomy : Roomy s a) : s.Alive 4 where
  live := {
    connected := h.live.connected
    room := by
      intro x
      cases x with
      | one => exact hroomy.1
      | two => exact hroomy.2 }
  mtu := h.mtu

theorem alive_start (cientAddr : A) (clock : Nat) : (start cientAddr clock).Alive 4 := by
  let first : EchoNet A := { start cientAddr clock with server := ⟨serverKcp, cientAddr, true, false, [], []⟩ }
  have hfirst : first.net =
      (Kcp.start 1 fun _ => 0).calls .two [.setmtu 1400, .nodelay 0 10 0 0, .wndsize 128 128] := by
    have hempty : Kcp.start 1 (fun _ => 0) = ⟨sides (create 1) (create 1), sides [] [], sides [] [], sides [] []⟩ := by
      simp only [Kcp.start, Net.mk.injEq]
      refine ⟨?_, ?_, ?_, ?_⟩ <;> · funext x; cases x <;> rfl
    rw [hempty]
    simp [Net.calls, Net.call, Ikcpcb.call, acceptedBy, deliveredBy, net, first, start, serverKcp]
  have hlive : first.net.Live 1 5 := hfirst ▸ (Net.Live.start 1 (by decide)).calls
  have hnet : (start cientAddr clock).net = first.net.call .two (.update (UInt32.ofNat clock)) :=
    net_update first clock
  refine ⟨hnet ▸ hlive.call .two _, ?_⟩
  have hcall : ∀ m, Call.update (UInt32.ofNat clock) ≠ .setmtu m := fun m => Call.noConfusion
  have hmtu := mtu_call first.net .two hcall .two
  rw [← hnet] at hmtu
  exact (congrArg Mtu.value hmtu).trans rfl

/-- What the server sent back is a front part of what the client sent, and what the client read is a front part of
that. -/
def Echoes (s : EchoNet A) : Prop :=
  s.server.passed <+: s.accepted ∧ s.delivered <+: s.server.passed

/-- Whatever the network does with the datagrams, the echo that a client reads is what it sent: no message is lost
in between, changed, repeated or overtaken on the two ways. -/
theorem echo_prefix (cientAddr : A) (clock : Nat) (as : List (EchoAction A))
    (has : EveryStep step Roomy (start cientAddr clock) as) :
    EveryState step Echoes (start cientAddr clock) as := by
  have hkept : ∀ (s : EchoNet A) a t, s.Alive 0 → Roomy s a → step s a = some t → t.Alive 0 :=
    fun s a t h hroomy hstep => alive_of_step (h.roomy hroomy) hstep
  refine everyState_of_everyStep hkept ?_ as _ ((alive_start cientAddr clock).mono (Nat.zero_le 4)) has
  exact fun s h => ⟨h.live.prefixes .one, h.live.prefixes .two⟩

/-- The datagram of a client with one message. -/
def question : Bytes :=
  [1, 0, 0, 0, 81, 0, 128, 0, 5, 0, 0, 0, 0, 0, 0, 0, 0, 0, 0, 0, 3, 0, 0, 0, 1, 2, 3]

/-- The acknowledgement and the echo. -/
def answer : Bytes :=
  [1, 0, 0, 0, 82, 0, 128, 0, 5, 0, 0, 0, 0, 0, 0, 0, 1, 0, 0, 0, 0, 0, 0, 0, 1, 0, 0, 0, 81, 0, 128, 0, 30, 0, 0, 0,
    0, 0, 0, 0, 1, 0, 0, 0, 3, 0, 0, 0, 1, 2, 3]

/-- A stray datagram comes to the server, then that of the client, twice. The echo arrives and is read. -/
def echoing : List (EchoAction Nat) :=
  [.call (.nodelay 0 10 0 0), .call (.send [1, 2, 3]), .call (.update 5), .call .flush,
    .serve ⟨20, some (4, [0, 0, 0])⟩, .serve ⟨30, some (9, question)⟩, .serve ⟨40, some (9, question)⟩,
    .arrive answer, .call (.recv 100)]

theorem echo_prefix_echoing : (run step (start 3 10) echoing).map EchoNet.delivered = some [[1, 2, 3]] ∧
    EveryState step Echoes (start 3 10) echoing :=
  ⟨by decide +kernel, echo_prefix 3 10 echoing (by decide +kernel)⟩

end EchoNet

end CppMisc.Kcp
