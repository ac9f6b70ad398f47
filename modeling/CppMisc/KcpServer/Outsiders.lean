import Mathlib.Tactic
import CppMisc.Kcp.EchoServer

/-!
# Outsiders and the destination of the output

`recvfrom` writes the sender of every datagram into `CientAddr` before anything looks at the datagram, and
`udp_output` sends to that address. A datagram from a third party that `ikcp_input` rejects does not change
the control block, but until the next datagram arrives everything that `ikcp_update` sends goes to the third
party. An empty datagram is rejected like every one that is shorter than the header, but the loop does not
ask: it ends, and the conversation with it.

The statement compares two runs of the loop, side by side, that differ only in iterations in which the first
gets nothing and the second such a stray datagram (`OnlyStrays`). As long as both go on their control blocks
stay equal, so both send the same packets at the same moments. The destinations can differ only for packets
sent by `ikcp_update` between a stray datagram and the next one, and there they do differ. Once an empty stray
datagram has ended the second run, the outputs stay the same only as long as the first sends nothing either.
-/

set_option autoImplicit false

namespace CppMisc.KcpServer

open CppMisc.Library

universe u v

variable {K : Type u} {A : Type v} (e : Engine K)

/-- A datagram from another address than the one in `CientAddr` that `ikcp_input` rejects, leaving the control
block as it was. -/
structure Stray (s : Server K A) (clock : Nat) (src : A) (buf : Bytes) : Prop where
  other : src ≠ s.cientAddr
  rejected : (e.input (e.update s.kcp clock).1 buf).2 < 0
  unchanged : (e.input (e.update s.kcp clock).1 buf).1 = (e.update s.kcp clock).1

/-- The iterations are the same, or the first run gets nothing and the second a stray datagram at the same
clock reading. -/
def OnlyStrays (s : Server K A × Server K A) (i : Iteration A × Iteration A) : Prop :=
  i.2 = i.1 ∨
    ∃ src buf, i.1.datagram = none ∧ i.2 = ⟨i.1.clock, some (src, buf)⟩ ∧
      Stray e s.1 i.1.clock src buf

/-- An iteration of a loop that may have ended: then nothing happens any more. -/
def stepOrEnded (s : Server K A) (i : Iteration A) : Option (Server K A) :=
  if s.running then step e s i else some s

/-- Both runs have handed the same bytes to `sendto`, for the same destinations. -/
def SameOutput (s : Server K A × Server K A) : Prop := s.1.sent = s.2.sent

instance [DecidableEq A] (s : Server K A × Server K A) : Decidable (SameOutput s) :=
  inferInstanceAs (Decidable (_ = _))

/-- What the `ikcp_flush` of an iteration sends that has received the bytes `buf`. -/
def replies (k : K) (buf : Bytes) : List Bytes :=
  let r := e.input k buf
  if r.2 < 0 then []
  else
    let m := e.recv r.1 buf.length
    match m.2 with
    | .error _ => []
    | .ok msg => (e.flush (e.send m.1 msg).1).2

/-- Neither the `ikcp_update` nor the `ikcp_flush` of the iteration sends anything. -/
def Silent (s : Server K A) (i : Iteration A) : Prop :=
  (e.update s.kcp i.clock).2 = [] ∧
    ∀ d ∈ i.datagram, d.2 ≠ [] → replies e (e.update s.kcp i.clock).1 d.2 = []

/-- `ikcp_update` sends nothing in an iteration that starts while `CientAddr` differs between the runs, which
is from a stray datagram on until the next one; and nothing at all is sent in an iteration of the first run
that starts when a stray datagram has ended the second. -/
def QuietWhileStray (s : Server K A × Server K A) (i : Iteration A × Iteration A) : Prop :=
  s.1.running = true →
    if s.2.running then s.1.cientAddr = s.2.cientAddr ∨ (e.update s.1.kcp i.1.clock).2 = []
    else Silent e s.1 i.1

/-- What the two runs share: as long as the second goes on, everything but the address. -/
structure Alike (s : Server K A × Server K A) : Prop where
  going : s.2.running = true → s.1.running = true ∧ s.1.kcp = s.2.kcp
  sent : s.1.sent = s.2.sent

/-! ## One iteration of both runs -/

section Iterations

variable {e} {s t : Server K A × Server K A} {i : Iteration A × Iteration A}

/-- A received datagram adds the packets of `ikcp_flush` to the output. -/
theorem sent_receive (s : Server K A) (buf : Bytes) :
    (receive e s buf).sent = s.sent ++ (replies e s.kcp buf).map fun p => (s.cientAddr, p) := by
  simp only [receive, replies]
  by_cases hret : (e.input s.kcp buf).2 < 0
  · simp [hret]
  · cases hmsg : (e.recv (e.input s.kcp buf).1 buf.length).2 with
    | error c => simp [hret]
    | ok msg => simp [hret, reply, udpOutput]

/-- Two servers with the same control block, given the same datagram, keep it the same. -/
theorem kcp_receive {s₁ s₂ : Server K A} (hkcp : s₁.kcp = s₂.kcp) (buf : Bytes) :
    (receive e s₁ buf).kcp = (receive e s₂ buf).kcp := by
  simp only [receive, hkcp]
  split
  · rfl
  · split
    · rfl
    · rfl

theorem receive_running (s : Server K A) (buf : Bytes) : (receive e s buf).running = s.running := by
  simp only [receive]
  split
  · rfl
  · split
    · rfl
    · rfl

/-- Both servers have gone on from `s` with an iteration: the outputs have grown by the packets of
`ikcp_update`, for the address of each, and by a part that is the same for both. -/
structure InStep (packets : List Bytes) (s t : Server K A × Server K A) : Prop where
  going : t.2.running = true → t.1.running = true ∧ t.1.kcp = t.2.kcp
  sent : ∃ more,
    t.1.sent = s.1.sent ++ packets.map (fun p => (s.1.cientAddr, p)) ++ more ∧
      t.2.sent = s.2.sent ++ packets.map (fun p => (s.2.cientAddr, p)) ++ more

theorem sent_update (s : Server K A) (clock : Nat) :
    (update e s clock).sent = s.sent ++ (e.update s.kcp clock).2.map fun p => (s.cientAddr, p) := rfl

/-- The same iteration in both runs. After a datagram both have the address of its sender. -/
theorem inStep_of_same {j : Iteration A} {s₁ s₂ t₁ t₂ : Server K A} (hkcp : s₁.kcp = s₂.kcp)
    (hrun : s₁.running = true) (h₁ : step e s₁ j = some t₁) (h₂ : step e s₂ j = some t₂) :
    InStep (e.update s₁.kcp j.clock).2 (s₁, s₂) (t₁, t₂) := by
  cases hd : j.datagram with
  | none =>
      obtain rfl := step_idle h₁ hd
      obtain rfl := step_idle h₂ hd
      refine ⟨fun _ => ⟨hrun, ?_⟩, [], ?_, ?_⟩
      · simp [update, udpOutput, hkcp]
      · rw [sent_update, List.append_nil]
      · rw [sent_update, List.append_nil, hkcp]
  | some d =>
      obtain ⟨src, buf⟩ := d
      by_cases hbuf : buf = []
      · subst hbuf
        obtain rfl := step_ended h₁ hd
        obtain rfl := step_ended h₂ hd
        refine ⟨fun hgoes => absurd hgoes Bool.false_ne_true, [], ?_, ?_⟩
        · rw [sent_update, List.append_nil]
        · rw [sent_update, List.append_nil, hkcp]
      · obtain rfl := step_received h₁ hd hbuf
        obtain rfl := step_received h₂ hd hbuf
        have hafter : ({ update e s₁ j.clock with cientAddr := src } : Server K A).kcp =
            ({ update e s₂ j.clock with cientAddr := src } : Server K A).kcp := by
          simp [update, udpOutput, hkcp]
        refine ⟨fun _ => ⟨?_, kcp_receive hafter buf⟩,
          (replies e (update e s₁ j.clock).kcp buf).map fun p => (src, p), ?_, ?_⟩
        · rw [receive_running]
          exact hrun
        · rw [sent_receive, sent_update]
        · rw [sent_receive, sent_update, ← hafter, ← hkcp]

/-- A stray datagram in the second run is rejected or ends it, and only the address changes besides. -/
theorem inStep_of_stray {clock : Nat} {j : Iteration A} {src : A} {buf : Bytes} {s₁ s₂ t₁ t₂ : Server K A}
    (hkcp : s₁.kcp = s₂.kcp) (hrun : s₁.running = true) (hnone : j.datagram = none) (hclock : j.clock = clock)
    (hstray : Stray e s₁ clock src buf) (h₁ : step e s₁ j = some t₁)
    (h₂ : step e s₂ ⟨clock, some (src, buf)⟩ = some t₂) :
    InStep (e.update s₁.kcp clock).2 (s₁, s₂) (t₁, t₂) := by
  subst hclock
  obtain rfl := step_idle h₁ hnone
  by_cases hbuf : buf = []
  · -- the loop ends without asking `ikcp_input`
    subst hbuf
    obtain rfl := step_ended h₂ rfl
    refine ⟨fun hgoes => absurd hgoes Bool.false_ne_true, [], ?_, ?_⟩
    · rw [sent_update, List.append_nil]
    · rw [sent_update, List.append_nil, hkcp]
  · obtain rfl := step_received h₂ rfl hbuf
    have hrej : (e.input (e.update s₂.kcp j.clock).1 buf).2 < 0 := hkcp ▸ hstray.rejected
    have hsame : (e.input (e.update s₂.kcp j.clock).1 buf).1 = (e.update s₂.kcp j.clock).1 :=
      hkcp ▸ hstray.unchanged
    rw [receive_rejected (e := e) (s := { update e s₂ j.clock with cientAddr := src }) hrej]
    refine ⟨fun _ => ⟨hrun, ?_⟩, [], ?_, ?_⟩
    · apply Eq.trans _ hsame.symm
      simp [update, udpOutput, hkcp]
    · rw [sent_update, List.append_nil]
    · rw [sent_update, List.append_nil, hkcp]

/-- An iteration of both runs while both go on. -/
theorem inStep_of_going (hkcp : s.1.kcp = s.2.kcp) (hrun : s.1.running = true) (hstray : OnlyStrays e s i)
    (h₁ : step e s.1 i.1 = some t.1) (h₂ : step e s.2 i.2 = some t.2) :
    InStep (e.update s.1.kcp i.1.clock).2 s t := by
  rcases hstray with heq | ⟨src, buf, hnone, heq, hstray⟩
  · rw [heq] at h₂
    exact inStep_of_same hkcp hrun h₁ h₂
  · rw [heq] at h₂
    exact inStep_of_stray hkcp hrun hnone rfl hstray h₁ h₂

/-- An iteration adds nothing to the output exactly when it is silent. -/
theorem sent_step_iff {s t : Server K A} {j : Iteration A} (h : step e s j = some t) :
    t.sent = s.sent ↔ Silent e s j := by
  have hmap : ∀ (a : A) (l : List Bytes), l.map (fun p => (a, p)) = [] ↔ l = [] :=
    fun _ _ => List.map_eq_nil_iff
  cases hd : j.datagram with
  | none =>
      obtain rfl := step_idle h hd
      simp [Silent, hd, sent_update]
  | some d =>
      obtain ⟨src, buf⟩ := d
      by_cases hbuf : buf = []
      · subst hbuf
        obtain rfl := step_ended h hd
        simp [Silent, hd, sent_update]
      · obtain rfl := step_received h hd hbuf
        have hkcp : (update e s j.clock).kcp = (e.update s.kcp j.clock).1 := rfl
        rw [sent_receive, sent_update, List.append_assoc, List.append_right_eq_self,
          List.append_eq_nil_iff, hmap, hmap, hkcp]
        simp [Silent, hd, hbuf]

/-- The same packets for two addresses are the same output only when there are none or the addresses are
equal. -/
theorem map_addr_eq_iff {a b : A} {packets : List Bytes} :
    packets.map (fun p => (a, p)) = packets.map (fun p => (b, p)) ↔ a = b ∨ packets = [] := by
  cases packets with
  | nil => simp
  | cons p ps =>
      constructor
      · intro h
        simp only [List.map_cons, List.cons.injEq, Prod.mk.injEq] at h
        exact .inl h.1.1
      · rintro (rfl | h)
        · rfl
        · cases h

/-- One iteration keeps the outputs the same exactly when it is quiet in the sense of `QuietWhileStray`, and
the control blocks as long as the second run goes on. -/
theorem lockstep_spec (hs : Alike s) (hstray : OnlyStrays e s i)
    (h : lockstep (stepOrEnded e) s i = some t) :
    (t.2.running = true → t.1.running = true ∧ t.1.kcp = t.2.kcp) ∧
      (SameOutput t ↔ QuietWhileStray e s i) := by
  obtain ⟨h₁, h₂⟩ := lockstep_eq_some.1 h
  cases hrun₂ : s.2.running with
  | true =>
      -- both go on
      obtain ⟨hrun₁, hkcp⟩ := hs.going hrun₂
      simp only [stepOrEnded, hrun₁, hrun₂, if_true] at h₁ h₂
      have hboth := inStep_of_going hkcp hrun₁ hstray h₁ h₂
      obtain ⟨more, hm₁, hm₂⟩ := hboth.sent
      refine ⟨hboth.going, ?_⟩
      simp only [SameOutput, QuietWhileStray, hrun₁, hrun₂, if_true, forall_const]
      rw [hm₁, hm₂, hs.sent, List.append_left_inj, List.append_right_inj, map_addr_eq_iff]
  | false =>
      simp only [stepOrEnded, hrun₂, Bool.false_eq_true, if_false, Option.some.injEq] at h₂
      refine ⟨fun hgoes => ?_, ?_⟩
      · rw [← h₂, hrun₂] at hgoes
        cases hgoes
      · cases hrun₁ : s.1.running with
        | true =>
            -- the first run goes on alone
            simp only [stepOrEnded, hrun₁, if_true] at h₁
            simp only [SameOutput, QuietWhileStray, hrun₁, hrun₂, Bool.false_eq_true, if_false, forall_const]
            rw [← h₂, ← hs.sent]
            exact sent_step_iff h₁
        | false =>
            simp only [stepOrEnded, hrun₁, Bool.false_eq_true, if_false, Option.some.injEq] at h₁
            simp only [SameOutput, QuietWhileStray, hrun₁, Bool.false_eq_true, false_implies, iff_true]
            rw [← h₁, ← h₂]
            exact hs.sent

end Iterations

/-- **Outsiders cannot redirect the conversation exactly when nothing is sent while a stray datagram counts.**
For every engine, every state of the server and every pair of runs from there that differ only in stray
datagrams, at the same clock readings, the outputs are the same at every moment if and only if `ikcp_update`
sends nothing in the iterations that start between a stray datagram and the next datagram, and the first run
sends nothing after an empty stray datagram has ended the second. -/
theorem sameOutput_iff_quietWhileStray (s : Server K A) (is : List (Iteration A × Iteration A))
    (h : EveryStep (lockstep (stepOrEnded e)) (OnlyStrays e) (s, s) is) :
    EveryState (lockstep (stepOrEnded e)) SameOutput (s, s) is ↔
      EveryStep (lockstep (stepOrEnded e)) (QuietWhileStray e) (s, s) is := by
  have hkept : ∀ s i t, Alike s → OnlyStrays e s i → QuietWhileStray e s i →
      lockstep (stepOrEnded e) s i = some t → Alike (A := A) t := by
    intro s i t hs hstray hquiet ht
    obtain ⟨hgoing, hsame⟩ := lockstep_spec hs hstray ht
    exact ⟨hgoing, hsame.2 hquiet⟩
  have hbroken : ∀ s i t, Alike s → OnlyStrays e s i → ¬ QuietWhileStray e s i →
      lockstep (stepOrEnded e) s i = some t → ¬ SameOutput (A := A) t := by
    intro s i t hs hstray hquiet ht hsame
    exact hquiet ((lockstep_spec hs hstray ht).2.1 hsame)
  exact everyState_iff_of_everyStep hkept (fun s hs => hs.sent) hbroken is _
    ⟨fun hrun => ⟨hrun, rfl⟩, rfl⟩ h

/-! ## With the engine of `ikcp.c` -/

/-- The server as `main` sets it up, with nobody's address yet. -/
def serverStart : Server Kcp.Ikcpcb Nat := start Kcp.engine Kcp.serverKcp 0 0

/-- The client at address 7 sends a message and gets its echo. Then the first run gets nothing where the second
gets the datagram `stray` from address 9, and the iteration `last` follows in both. -/
def strayRuns (stray : Bytes) (last : Iteration Nat) : List (Iteration Nat × Iteration Nat) :=
  [(⟨1, some (7, segment 0 [65])⟩, ⟨1, some (7, segment 0 [65])⟩),
    (⟨2, none⟩, ⟨2, some (9, stray)⟩),
    (last, last)]

/-- A datagram that is shorter than the header is a stray one. -/
theorem onlyStrays_strayRuns {stray : Bytes} (hshort : stray.length < Kcp.overhead) (last : Iteration Nat) :
    EveryStep (lockstep (stepOrEnded Kcp.engine)) (OnlyStrays Kcp.engine) (serverStart, serverStart)
      (strayRuns stray last) := by
  intro t₁ h₁
  refine ⟨.inl rfl, fun t₂ h₂ => ⟨.inr ⟨9, stray, rfl, rfl, ?_⟩, fun t₃ h₃ => ⟨.inl rfl, trivial⟩⟩⟩
  have hrefused : ∀ kcp : Kcp.Ikcpcb, Kcp.engine.input kcp stray = (kcp, -1) := fun kcp => if_pos hshort
  obtain rfl := Option.some.inj h₁
  refine ⟨by decide, ?_, ?_⟩
  · rw [hrefused]
    exact neg_one_lt_zero
  · rw [hrefused]

/-- Control: ten milliseconds later nothing is due, and the outputs are the same, even where an empty datagram has
ended the second run. -/
theorem sameOutput_before_resend :
    EveryState (lockstep (stepOrEnded Kcp.engine)) SameOutput (serverStart, serverStart)
        (strayRuns [0, 0, 0, 0, 0] ⟨12, none⟩) ∧
      EveryState (lockstep (stepOrEnded Kcp.engine)) SameOutput (serverStart, serverStart)
        (strayRuns [] ⟨12, none⟩) := by
  constructor
  · apply (sameOutput_iff_quietWhileStray Kcp.engine _ _ (onlyStrays_strayRuns (by decide) _)).2
    intro t₁ h₁
    obtain rfl := Option.some.inj h₁
    refine ⟨fun _ => .inl rfl, fun t₂ h₂ => ?_⟩
    obtain rfl := Option.some.inj h₂
    exact ⟨fun _ => .inl rfl, fun t₃ h₃ => ⟨fun _ => .inr (by decide), trivial⟩⟩
  · apply (sameOutput_iff_quietWhileStray Kcp.engine _ _ (onlyStrays_strayRuns (by decide) _)).2
    intro t₁ h₁
    obtain rfl := Option.some.inj h₁
    refine ⟨fun _ => .inl rfl, fun t₂ h₂ => ?_⟩
    obtain rfl := Option.some.inj h₂
    refine ⟨fun _ => .inl rfl, fun t₃ h₃ => ⟨fun _ => ?_, trivial⟩⟩
    exact ⟨by decide, fun d hd => by cases hd⟩

/-- At the time of the retransmission the echo goes to address 9 in the second run; and an empty datagram takes away
the acknowledgement of the client's next message. -/
theorem stray_redirects_resend :
    (¬ ∀ (K : Type) (e : Engine K) (s : Server K Nat) (is : List (Iteration Nat × Iteration Nat)),
      EveryStep (lockstep (stepOrEnded e)) (OnlyStrays e) (s, s) is →
        EveryState (lockstep (stepOrEnded e)) SameOutput (s, s) is) ∧
    ¬ EveryState (lockstep (stepOrEnded Kcp.engine)) SameOutput (serverStart, serverStart)
      (strayRuns [] ⟨3, some (7, segment 1 [66])⟩) := by
  constructor
  · intro h
    have hrun := h Kcp.Ikcpcb Kcp.engine serverStart (strayRuns [0, 0, 0, 0, 0] ⟨300, none⟩)
      (onlyStrays_strayRuns (by decide) _)
    have hlast : SameOutput _ := ((hrun.2 _ rfl).2 _ rfl).2 _ rfl
    exact absurd hlast (by decide)
  · intro hrun
    have hlast : SameOutput _ := ((hrun.2 _ rfl).2 _ rfl).2 _ rfl
    exact absurd hlast (by decide)

end CppMisc.KcpServer
