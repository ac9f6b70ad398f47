import Mathlib.Tactic
import CppMisc.KcpServer.Model

/-!
# Which messages are echoed

A datagram can complete any number of messages, of any size, and `loop` makes one call of `ikcp_recv` for
it, with the size of the datagram as the bound. `Delivers` is what is taken for granted of the engine:
which messages are complete and readable, and that `ikcp_recv` returns the first of them if it fits.

The messages that have become complete are the ones passed to `ikcp_send` followed by the ones that still
wait, in every state. So an iteration leaves nothing behind exactly when the datagram leaves at most one
complete message to be read and this one is no larger than the datagram itself (`Drained`).
-/

set_option autoImplicit false

namespace CppMisc.KcpServer

open CppMisc.Library

universe u v

variable {K : Type u} {A : Type v}

/-- The messages that are complete and readable in each state of the engine, and how its functions change
them. -/
structure Delivers (e : Engine K) (readable : K → List Bytes) : Prop where
  update : ∀ k clock, readable (e.update k clock).1 = readable k
  input : ∀ k data, readable k <+: readable (e.input k data).1
  recv_nil : ∀ k n, readable k = [] →
    readable (e.recv k n).1 = [] ∧ ∃ c, c < 0 ∧ (e.recv k n).2 = .error c
  recv_fits : ∀ k n m ms, readable k = m :: ms → m.length ≤ n →
    readable (e.recv k n).1 = ms ∧ (e.recv k n).2 = .ok m
  recv_large : ∀ k n m ms, readable k = m :: ms → n < m.length →
    readable (e.recv k n).1 = m :: ms ∧ (e.recv k n).2 = .error (-3)
  send : ∀ k msg, readable (e.send k msg).1 = readable k
  flush : ∀ k, readable (e.flush k).1 = readable k

/-- The server, and all messages that have been completely received so far. -/
structure Traced (K : Type u) (A : Type v) where
  server : Server K A
  delivered : List Bytes

section Trace

variable (e : Engine K) (readable : K → List Bytes)

/-- The control block as `ikcp_input` finds it in an iteration. -/
def kcpAtInput (s : Server K A) (i : Iteration A) : K := (e.update s.kcp i.clock).1

/-- The messages that an iteration makes complete. -/
def arrivals (s : Server K A) (i : Iteration A) : List Bytes :=
  match i.datagram with
  | none => []
  | some (_, buf) =>
      let k := kcpAtInput e s i
      if buf = [] then [] else (readable (e.input k buf).1).drop (readable k).length

/-- An iteration that also records the arrivals. -/
def tracedStep (t : Traced K A) (i : Iteration A) : Option (Traced K A) :=
  (step e t.server i).map fun s => ⟨s, t.delivered ++ arrivals e readable t.server i⟩

/-- The loop is entered with the messages that are readable then. -/
def tracedStart (kcp : K) (cientAddr : A) (clock : Nat) : Traced K A :=
  ⟨start e kcp cientAddr clock, readable kcp⟩

/-- After an iteration whose `ikcp_input` succeeded, every complete message has been passed to `ikcp_send`,
once and in order, and none is waiting. -/
def Echoed (t : Traced K A) : Prop :=
  t.server.accepted = true → t.server.passed = t.delivered ∧ readable t.server.kcp = []

/-- If `ikcp_input` takes the datagram of this iteration, then at most one complete message is there to be
read, and it is no larger than the datagram. -/
def Drained (t : Traced K A) (i : Iteration A) : Prop :=
  ∀ src buf, i.datagram = some (src, buf) → buf ≠ [] →
    0 ≤ (e.input (kcpAtInput e t.server i) buf).2 →
      (readable (e.input (kcpAtInput e t.server i) buf).1).length ≤ 1 ∧
        ∀ m ∈ readable (e.input (kcpAtInput e t.server i) buf).1, m.length ≤ buf.length

end Trace

/-! ## The three parts of an iteration -/

section Parts

variable {e : Engine K} {readable : K → List Bytes}

/-- What was completed is what was passed on, followed by what waits. -/
def Conserved (readable : K → List Bytes) (t : Traced K A) : Prop :=
  t.delivered = t.server.passed ++ readable t.server.kcp

theorem drop_of_prefix {x y : List Bytes} (h : x <+: y) : x ++ y.drop x.length = y := by
  obtain ⟨z, rfl⟩ := h
  simp

/-- `ikcp_send` and `ikcp_flush` leave the readable messages alone. -/
theorem readable_reply (he : Delivers e readable) (s : Server K A) (kcp : K) (msg : Bytes) :
    readable (reply e s kcp msg).kcp = readable kcp := by
  simp [reply, udpOutput, he.flush, he.send]

/-- An accepted datagram: the first readable message is passed on if it fits. -/
theorem receive_accepted (he : Delivers e readable) {s : Server K A} {buf : Bytes}
    (h : 0 ≤ (e.input s.kcp buf).2) :
    (receive e s buf).accepted = true ∧
      (receive e s buf).passed ++ readable (receive e s buf).kcp =
        s.passed ++ readable (e.input s.kcp buf).1 ∧
      (readable (receive e s buf).kcp = [] ↔
        (readable (e.input s.kcp buf).1).length ≤ 1 ∧
          ∀ m ∈ readable (e.input s.kcp buf).1, m.length ≤ buf.length) := by
  have hnot : ¬ (e.input s.kcp buf).2 < 0 := by omega
  cases hq : readable (e.input s.kcp buf).1 with
  | nil =>
      obtain ⟨hempty, c, _, hc⟩ := he.recv_nil _ buf.length hq
      simp [receive, hnot, hc, hempty]
  | cons m ms =>
      by_cases hfits : m.length ≤ buf.length
      · obtain ⟨hrest, hm⟩ := he.recv_fits _ buf.length m ms hq hfits
        have hreply : receive e s buf = reply e s (e.recv (e.input s.kcp buf).1 buf.length).1 m := by
          simp [receive, hnot, hm]
        rw [hreply]
        refine ⟨rfl, ?_, ?_⟩
        · rw [readable_reply he, hrest]
          simp [reply, udpOutput]
        · rw [readable_reply he, hrest]
          constructor
          · rintro rfl
            simpa using hfits
          · intro hlen
            simpa using hlen.1
      · obtain ⟨hrest, hm⟩ := he.recv_large _ buf.length m ms hq (by omega)
        refine ⟨by simp [receive, hnot, hm], by simp [receive, hnot, hm, hrest], ?_⟩
        constructor
        · intro hempty
          simp [receive, hnot, hm, hrest] at hempty
        · intro hsmall
          exact absurd (hsmall.2 m (by simp)) hfits

theorem readable_update (he : Delivers e readable) (s : Server K A) (clock : Nat) :
    readable (update e s clock).kcp = readable s.kcp :=
  he.update s.kcp clock

/-- An iteration in which no message can arrive: the clock advances, and at most the address and the loop's
flag change. -/
theorem conserved_of_quiet (he : Delivers e readable) {t : Traced K A} {s : Server K A} {clock : Nat}
    (hc : Conserved readable t) (hkcp : s.kcp = (update e t.server clock).kcp)
    (hpassed : s.passed = t.server.passed) : Conserved readable ⟨s, t.delivered ++ []⟩ := by
  unfold Conserved at hc ⊢
  rw [List.append_nil, hkcp, readable_update he, hpassed]
  exact hc

/-- The iteration of a datagram. What is readable after `ikcp_input` has been completed before or just now,
and the loop passes at most one message of it on. -/
theorem tracedStep_datagram (he : Delivers e readable) {t : Traced K A} {i : Iteration A} {src : A}
    {buf : Bytes} (hc : Conserved readable t) (hd : i.datagram = some (src, buf)) (hbuf : buf ≠ []) :
    Conserved readable
        ⟨receive e { update e t.server i.clock with cientAddr := src } buf,
          t.delivered ++ arrivals e readable t.server i⟩ ∧
      (Echoed readable
          ⟨receive e { update e t.server i.clock with cientAddr := src } buf,
            t.delivered ++ arrivals e readable t.server i⟩ ↔ Drained e readable t i) := by
  unfold Conserved at hc
  have hprefix := drop_of_prefix (he.input (kcpAtInput e t.server i) buf)
  have harrive : arrivals e readable t.server i =
      (readable (e.input (kcpAtInput e t.server i) buf).1).drop
        (readable (kcpAtInput e t.server i)).length := by
    simp [arrivals, hd, hbuf]
  have hcons : t.delivered ++ arrivals e readable t.server i =
      t.server.passed ++ readable (e.input (kcpAtInput e t.server i) buf).1 := by
    rw [hc, harrive, List.append_assoc, ← hprefix]
    simp [kcpAtInput, he.update]
  by_cases hret : (e.input (kcpAtInput e t.server i) buf).2 < 0
  · have hrej := receive_rejected (e := e)
      (s := { update e t.server i.clock with cientAddr := src }) hret
    rw [hrej]
    refine ⟨hcons, fun _ src' buf' hd' _ hok => ?_, fun _ hacc => by cases hacc⟩
    rw [hd] at hd'
    cases hd'
    omega
  · obtain ⟨hacc, hsame, hempty⟩ := receive_accepted he
      (s := { update e t.server i.clock with cientAddr := src }) (Int.not_lt.1 hret)
    refine ⟨hcons.trans hsame.symm, ?_⟩
    constructor
    · intro hechoed src' buf' hd' _ _
      rw [hd] at hd'
      cases hd'
      exact hempty.1 (hechoed hacc).2
    · intro hdrained _
      have hnil := hempty.2 (hdrained src buf hd hbuf (Int.not_lt.1 hret))
      refine ⟨?_, hnil⟩
      rw [hnil, List.append_nil] at hsame
      exact hsame.trans hcons.symm

/-- An iteration conserves the messages, and nothing waits after it exactly when it drains the queue. -/
theorem tracedStep_spec (he : Delivers e readable) {t t' : Traced K A} {i : Iteration A}
    (hc : Conserved readable t) (h : tracedStep e readable t i = some t') :
    Conserved readable t' ∧ (Echoed readable t' ↔ Drained e readable t i) := by
  obtain ⟨s, hstep, rfl⟩ := Option.map_eq_some_iff.1 h
  cases hd : i.datagram with
  | none =>
      obtain rfl := step_idle hstep hd
      have harrive : arrivals e readable t.server i = [] := by simp [arrivals, hd]
      rw [harrive]
      refine ⟨conserved_of_quiet he hc rfl rfl, ?_⟩
      exact ⟨fun _ src buf hd' => by simp [hd] at hd', fun _ hacc => by cases hacc⟩
  | some d =>
      obtain ⟨src, buf⟩ := d
      by_cases hbuf : buf = []
      · -- an empty datagram ends the loop
        subst hbuf
        obtain rfl := step_ended hstep hd
        have harrive : arrivals e readable t.server i = [] := by simp [arrivals, hd]
        rw [harrive]
        refine ⟨conserved_of_quiet he hc rfl rfl, ?_⟩
        refine ⟨fun _ src' buf' hd' hne => ?_, fun _ hacc => by cases hacc⟩
        rw [hd] at hd'
        cases hd'
        exact absurd rfl hne
      · obtain rfl := step_received hstep hd hbuf
        exact tracedStep_datagram he hc hd hbuf

end Parts

/-- **Every delivered message is echoed exactly when every accepted datagram drains the queue.** For every
engine that delivers messages, every start and every sequence of datagrams and clock readings: after each
iteration whose `ikcp_input` succeeded all complete messages have been passed to `ikcp_send`, once and in
order, and none is waiting, if and only if each accepted datagram leaves at most one complete message to be
read, no larger than itself. -/
theorem echoed_iff_drained {e : Engine K} {readable : K → List Bytes} (he : Delivers e readable)
    (kcp : K) (cientAddr : A) (clock : Nat) (is : List (Iteration A)) :
    EveryState (tracedStep e readable) (Echoed readable) (tracedStart e readable kcp cientAddr clock)
        is ↔
      EveryStep (tracedStep e readable) (Drained e readable)
        (tracedStart e readable kcp cientAddr clock) is := by
  have hstart : Conserved readable (tracedStart e readable kcp cientAddr clock) := by
    simp [Conserved, tracedStart, start, update, udpOutput, he.update]
  have hstep : ∀ (t : Traced K A) i t', (Conserved readable t ∧ Echoed readable t) →
      Drained e readable t i → tracedStep e readable t i = some t' → Conserved readable t' ∧ Echoed readable t' := by
    rintro t i t' ⟨hc, _⟩ hdrained h
    obtain ⟨hc', hiff⟩ := tracedStep_spec he hc h
    exact ⟨hc', hiff.2 hdrained⟩
  have hfail : ∀ (t : Traced K A) i t', (Conserved readable t ∧ Echoed readable t) →
      ¬ Drained e readable t i → tracedStep e readable t i = some t' → ¬ Echoed readable t' := by
    rintro t i t' ⟨hc, _⟩ hdrained h hechoed
    exact hdrained ((tracedStep_spec he hc h).2.1 hechoed)
  apply everyState_iff_everyStep hstep (fun t ht => ht.2) hfail
  exact ⟨hstart, fun hacc => by cases hacc⟩

/-! ## On the small engine -/

/-- The small engine delivers the messages of its receive queue. -/
theorem kcpEngine_delivers : Delivers kcpEngine Kcp.rcvQueue := by
  constructor
  · intro k clock
    simp only [kcpEngine]
    split
    · rfl
    · rfl
  · intro k data
    simp only [kcpEngine]
    split
    · exact List.prefix_rfl
    · split
      · exact List.prefix_rfl
      · exact List.prefix_append _ _
  · intro k n hk
    simp [kcpEngine, hk]
  · intro k n m ms hk hm
    simp [kcpEngine, hk, hm]
  · intro k n m ms hk hm
    simp [kcpEngine, hk, Nat.not_le.2 hm]
  · exact fun k msg => rfl
  · exact fun k => rfl

/-- Control: one segment in one datagram, then an idle iteration; the message is echoed. -/
theorem echoed_single_segment :
    EveryState (tracedStep kcpEngine Kcp.rcvQueue) (Echoed Kcp.rcvQueue)
      (tracedStart kcpEngine Kcp.rcvQueue kcpCreate 0 0)
      [⟨1, some (7, segment 0 [65, 66])⟩, ⟨2, none⟩] := by
  apply (echoed_iff_drained kcpEngine_delivers kcpCreate 0 0 _).2
  intro t₁ h₁
  refine ⟨?_, fun t₂ h₂ => ⟨fun src buf hd => (by cases hd), trivial⟩⟩
  intro src buf hd _ _
  cases hd
  decide

/-- Control: a datagram with the segments of two messages, as a sender builds it when both are queued before
a flush. The second message is complete and stays in the receive queue. -/
theorem echo_leaves_second_message :
    ¬ ∀ (K : Type) (e : Engine K) (readable : K → List Bytes), Delivers e readable →
      ∀ (kcp : K) (cientAddr clock : Nat) (is : List (Iteration Nat)),
        EveryState (tracedStep e readable) (Echoed readable)
          (tracedStart e readable kcp cientAddr clock) is := by
  intro h
  have hrun := h Kcp kcpEngine Kcp.rcvQueue kcpEngine_delivers kcpCreate 0 0
    [⟨1, some (7, segment 0 [65, 66] ++ segment 1 [67])⟩]
  have hlast := (hrun.2 _ rfl) rfl
  exact absurd hlast.2 (by decide)

end CppMisc.KcpServer
