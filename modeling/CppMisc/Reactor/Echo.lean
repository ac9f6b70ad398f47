import Mathlib.Tactic
import CppMisc.Reactor.Moves

/-!
# The echoed stream

`recv_cb` keeps what it reads in the buffer of the entry and `send_cb` sends it back, so on each connection
what was sent should always be a prefix of what was received. `send_cb` takes any positive count as success
and turns the entry back to input; the next `recv_cb` overwrites the buffer, and the bytes that were not
sent are gone.

Between the callbacks, as long as no `send` was short, the received bytes are the sent ones and, while the
entry waits for output, the buffer (`Cell.Echo`). A short `send` alone does no harm to the prefix, but every
further `send` on the connection continues behind a gap: `NoSendAfterShort` excludes exactly that.
-/

set_option autoImplicit false

namespace CppMisc.Reactor

open CppMisc.Library

/-- On every connection, what was sent is a prefix of what was received. -/
def EchoIntact (s : State) : Prop :=
  ∀ fd k, s.socks fd = some (.accepted k) → k.sent <+: k.received

/-- No `send_cb` sends on a connection on which an earlier `send` was short. -/
def NoSendAfterShort (s : State) : Act → Prop
  | .addlistener _ _ => True
  | .event fd rep r₁ r₂ =>
      ∀ r, Fires s fd rep r₁ r₂ r → (s.table fd).callback = .sendCb → ∀ n, r.send = some n → n ≠ 0 →
        ∀ k, s.socks fd = some (.accepted k) → k.short = false

/-! ## The buffer -/

/-- The zero behind the data is outside the data, and for a full buffer it does not change the length. -/
theorem NtyEvent.terminate_load {ev : NtyEvent} {bs : List UInt8} (h : bs.length ≤ bufferLength)
    (hbuffer : ev.buffer.load 0 bs.length = bs) :
    (ev.terminate bs.length).buffer.load 0 (ev.terminate bs.length).length = bs := by
  unfold NtyEvent.terminate
  split
  next hlt =>
    calc (ev.buffer.put bs.length 0).load 0 bs.length = ev.buffer.load 0 bs.length := by
          apply Memory.load_congr
          intro i hi
          exact Memory.put_of_ne (by omega)
      _ = bs := hbuffer
  next hge =>
    have hfull : bs.length = 1024 := by
      unfold bufferLength at h hge
      omega
    rw [hfull] at hbuffer ⊢
    exact hbuffer

/-! ## The invariant of one connection -/

/-- The streams of a connection and the buffer of its entry. -/
structure Cell.Echo (c : Cell) : Prop where
  intact : ∀ k, c.sock = some (.accepted k) → k.sent <+: k.received
  pending : ∀ k, c.sock = some (.accepted k) → c.reg ≠ none → k.short = false →
    c.entry.callback = .sendCb → k.received = k.sent ++ c.entry.buffer.load 0 c.entry.length
  idle : ∀ k, c.sock = some (.accepted k) → c.reg ≠ none → k.short = false →
    c.entry.callback = .recvCb → k.received = k.sent

def Echo (s : State) : Prop := ∀ q, (s.cell q).Echo

theorem Cell.echo_of_none {c : Cell} (h : c.sock = none) : c.Echo := by
  constructor
  · intro k hk
    cases h.symm.trans hk
  · intro k hk
    cases h.symm.trans hk
  · intro k hk
    cases h.symm.trans hk

theorem Cell.echo_of_listener {c : Cell} (h : c.sock = some .listener) : c.Echo := by
  constructor
  · intro k hk
    cases h.symm.trans hk
  · intro k hk
    cases h.symm.trans hk
  · intro k hk
    cases h.symm.trans hk

/-- A new connection has empty streams, and its entry, if it is registered, waits for input. -/
theorem Cell.echo_of_fresh {c : Cell} (h : c.sock = some (.accepted .fresh))
    (hcb : c.reg ≠ none → c.entry.callback = .recvCb) : c.Echo := by
  constructor
  · intro k hk
    cases h.symm.trans hk
    exact List.prefix_rfl
  · intro k hk hreg _ hsend
    rw [hcb hreg] at hsend
    cases hsend
  · intro k hk _ _ _
    cases h.symm.trans hk
    rfl

/-- `recv_cb` appends to the received stream what the buffer now holds. -/
theorem Cell.Echo.received {c : Cell} (hc : c.Echo) {p : Nat} {bs : List UInt8} {del add : Bool}
    (hreg : c.reg ≠ none) (hcb : c.entry.callback = .recvCb) (hlen : bs.length ≤ bufferLength) :
    ((((c.recv bs).del p del).terminate bs.length).rearm p .sendCb .output add).Echo := by
  have hsock : ((((c.recv bs).del p del).terminate bs.length).rearm p .sendCb .output add).sock =
      c.sock.map (Sock.receive bs) := Cell.del_sock (c.recv bs) p del
  have hbuffer : (((c.recv bs).del p del).entry.buffer).load 0 bs.length = bs := by
    rw [Cell.del_buffer]
    exact Memory.load_store c.entry.buffer 0 bs
  have hload := NtyEvent.terminate_load hlen hbuffer
  have hconn : ∀ k, c.sock.map (Sock.receive bs) = some (.accepted k) →
      ∃ k₀, c.sock = some (.accepted k₀) ∧ k = { k₀ with received := k₀.received ++ bs } := by
    intro k hk
    obtain ⟨x, hx, hxk⟩ := Option.map_eq_some_iff.1 hk
    cases x with
    | listener => cases hxk
    | accepted k₀ =>
        cases hxk
        exact ⟨k₀, hx, rfl⟩
  constructor
  · intro k hk
    rw [hsock] at hk
    obtain ⟨k₀, hk₀, rfl⟩ := hconn k hk
    exact (hc.intact k₀ hk₀).trans (List.prefix_append _ _)
  · intro k hk _ hshort _
    rw [hsock] at hk
    obtain ⟨k₀, hk₀, rfl⟩ := hconn k hk
    have hidle := hc.idle k₀ hk₀ hreg hshort hcb
    calc k₀.received ++ bs = k₀.sent ++ bs := by rw [hidle]
      _ = _ := congrArg (k₀.sent ++ ·) hload.symm
  · intro k _ _ _ hrecv
    cases hrecv

/-- A `send` on a connection without a gap appends the first bytes of the buffer; if it takes all of them,
nothing is pending afterwards. -/
theorem Cell.Echo.sent {c : Cell} (hc : c.Echo) {p n : Nat} {del add : Bool} (hreg : c.reg ≠ none)
    (hcb : c.entry.callback = .sendCb) (hn : n ≤ c.entry.length)
    (hwhole : ∀ k, c.sock = some (.accepted k) → k.short = false) :
    (((c.send n).del p del).rearm p .recvCb .input add).Echo := by
  have hsock : (((c.send n).del p del).rearm p .recvCb .input add).sock =
      c.sock.map (Sock.send (c.entry.buffer.load 0 n) c.entry.length) :=
    Cell.del_sock (c.send n) p del
  have hconn : ∀ k, c.sock.map (Sock.send (c.entry.buffer.load 0 n) c.entry.length) =
        some (.accepted k) →
      ∃ k₀, c.sock = some (.accepted k₀) ∧ k.received = k₀.received ∧
        k.sent = k₀.sent ++ c.entry.buffer.load 0 n ∧
        (k.short = false → n = c.entry.length) := by
    intro k hk
    obtain ⟨x, hx, hxk⟩ := Option.map_eq_some_iff.1 hk
    cases x with
    | listener => cases hxk
    | accepted k₀ =>
        cases hxk
        refine ⟨k₀, hx, rfl, rfl, fun hshort => ?_⟩
        have hge : ¬ n < c.entry.length := by simpa using (Bool.or_eq_false_iff.1 hshort).2
        omega
  -- before the call the whole buffer is pending
  have hpending : ∀ k₀, c.sock = some (.accepted k₀) →
      k₀.received = k₀.sent ++ c.entry.buffer.load 0 c.entry.length := by
    intro k₀ hk₀
    exact hc.pending k₀ hk₀ hreg (hwhole k₀ hk₀) hcb
  constructor
  · intro k hk
    rw [hsock] at hk
    obtain ⟨k₀, hk₀, hrecv, hsent, _⟩ := hconn k hk
    rw [hrecv, hsent, hpending k₀ hk₀]
    apply (List.prefix_append_right_inj _).2
    obtain ⟨m, hm⟩ := Nat.exists_eq_add_of_le hn
    rw [hm, Memory.load_add]
    exact List.prefix_append _ _
  · intro k _ _ _ hsend
    cases hsend
  · intro k hk _ hshort _
    rw [hsock] at hk
    obtain ⟨k₀, hk₀, hrecv, hsent, hall⟩ := hconn k hk
    rw [hrecv, hsent, hpending k₀ hk₀, hall hshort]

/-! ## Runs -/

theorem Touches.echo {s t : State} {q : Nat} {c : Cell} (h : Touches s t q c) (hs : Echo s)
    (hc : c.Echo) : Echo t :=
  h.forall_cell (P := fun _ c => c.Echo) hs hc

theorem callbackMove_echo {s t : State} {fd : Nat} {r : Results} (hsound : Sound s) (hs : Echo s)
    (hreg : s.epoll fd ≠ none) (h : CallbackMove s fd r t)
    (hwhole : (s.table fd).callback = .sendCb → ∀ n, r.send = some n → n ≠ 0 →
      ∀ k, s.socks fd = some (.accepted k) → k.short = false) : Echo t := by
  cases h with
  | refused hcb hr => exact hs
  | left hcb hr hq hf ht =>
      apply ht.echo hs
      apply Cell.echo_of_fresh rfl
      exact fun hne => absurd hq ((hsound _).opened hne)
  | accepted hcb hr hq hf ht =>
      apply ht.echo hs
      exact Cell.echo_of_fresh rfl fun _ => rfl
  | recvEnd hcb hr ht hnone hsock =>
      apply ht.echo hs
      exact Cell.echo_of_none hsock
  | received hcb hr hbs hlen ht =>
      apply ht.echo hs
      exact (hs fd).received hreg hcb hlen
  | sendEnd hcb hr ht hnone hsock =>
      apply ht.echo hs
      exact Cell.echo_of_none hsock
  | sent hcb hr hn hlen ht =>
      apply ht.echo hs
      exact (hs fd).sent hreg hcb hlen (hwhole hcb _ hr hn)

theorem echo_step {s t : State} {a : Act} (hsound : Sound s) (hs : Echo s)
    (hwhole : NoSendAfterShort s a) (h : step s a = some t) : Echo t := by
  cases a with
  | addlistener fd add =>
      obtain ⟨_, ht⟩ := step_addlistener h
      apply ht.echo hs
      exact Cell.echo_of_listener rfl
  | event fd rep r₁ r₂ =>
      rcases step_event hsound h with ⟨_, rfl⟩ | ⟨r, hfire, _, hreg, hmove⟩
      · exact hs
      · exact callbackMove_echo hsound hs hreg hmove (hwhole r hfire)

/-- **The echo is intact as long as no `send` follows a short one.** In every run of the reactor, with any
number of connections and any results of the system calls, in which no `send_cb` sends on a connection
after a short `send` on it, what was sent on a connection is a prefix of what was received on it in every
state. -/
theorem echoIntact_of_noSendAfterShort (table : Nat → NtyEvent) (as : List Act)
    (h : EveryStep step NoSendAfterShort (ntyreactorInit table) as) :
    EveryState step EchoIntact (ntyreactorInit table) as := by
  have hkept : ∀ s a t, (Sound s ∧ Echo s) → NoSendAfterShort s a → step s a = some t →
      Sound t ∧ Echo t := by
    rintro s a t ⟨hsound, hs⟩ hwhole ht
    exact ⟨sound_step hsound ht, echo_step hsound hs hwhole ht⟩
  have hintact : ∀ s, (Sound s ∧ Echo s) → EchoIntact s := by
    rintro s ⟨_, hs⟩ fd k hk
    exact (hs fd).intact k hk
  apply everyState_of_everyStep hkept hintact as _ _ h
  exact ⟨sound_init table, fun _ => Cell.echo_of_none rfl⟩

/-- A zeroed table. -/
def zeroedTable : Nat → NtyEvent := fun _ => ⟨0, ⟨false, false⟩, .acceptCb, 0, .zeroed, 0⟩

/-- The results of a callback on a healthy connection. -/
def healthy (accept : Option Nat) (recv : Option (List UInt8)) (send : Option Nat) : Results :=
  ⟨accept, true, recv, send, true, true⟩

/-- A listener on descriptor 3 accepts descriptor 4, on which `bs` is received and `n` bytes are sent. -/
def echoOnce (bs : List UInt8) (n : Nat) : List Act :=
  [.addlistener 3 true,
    .event 3 ⟨true, false, false, false⟩ (healthy (some 4) none none) (healthy none none none),
    .event 4 ⟨true, false, false, false⟩ (healthy none (some bs) none) (healthy none none none),
    .event 4 ⟨false, true, false, false⟩ (healthy none none none) (healthy none none (some n))]

/-- Control: a run that ends with a short `send` meets the condition. -/
theorem echoIntact_echoOnce :
    EveryStep step NoSendAfterShort (ntyreactorInit zeroedTable) (echoOnce [7, 8, 9] 2) ∧
      EveryState step EchoIntact (ntyreactorInit zeroedTable) (echoOnce [7, 8, 9] 2) := by
  have hrun : EveryStep step NoSendAfterShort (ntyreactorInit zeroedTable)
      (echoOnce [7, 8, 9] 2) := by
    intro s₁ h₁
    obtain rfl := Option.some.inj h₁
    refine ⟨trivial, fun s₂ h₂ => ?_⟩
    obtain rfl := Option.some.inj h₂
    -- no `send_cb` runs before the last event, and before that one no `send` was short
    refine ⟨fun r _ hcb => ?_, fun s₃ h₃ => ?_⟩
    · cases hcb
    obtain rfl := Option.some.inj h₃
    refine ⟨fun r _ hcb => ?_, fun s₄ h₄ => ?_⟩
    · cases hcb
    refine ⟨fun r _ _ n _ _ k hk => ?_, trivial⟩
    cases hk
    rfl
  exact ⟨hrun, echoIntact_of_noSendAfterShort zeroedTable _ hrun⟩

/-- After `echoOnce` one more byte is received and sent. -/
def echoOnceMore : List Act :=
  echoOnce [7, 8, 9] 2 ++
    [.event 4 ⟨true, false, false, false⟩ (healthy none (some [5]) none) (healthy none none none),
      .event 4 ⟨false, true, false, false⟩ (healthy none none none) (healthy none none (some 1))]

/-- Control: three bytes are received, two are sent, one more is received and sent; the third byte is
missing from the echo. -/
theorem echo_loses_byte :
    ¬ ∀ (table : Nat → NtyEvent) (as : List Act),
      EveryState step EchoIntact (ntyreactorInit table) as := by
  intro h
  have hrun := h zeroedTable echoOnceMore
  have hend : (run step (ntyreactorInit zeroedTable) echoOnceMore).map (fun s => s.socks 4) =
      some (some (.accepted ⟨[7, 8, 9, 5], [7, 8, 5], true⟩)) := by
    decide +kernel
  obtain ⟨s, hs, hsock⟩ := Option.map_eq_some_iff.1 hend
  have hprefix : ([7, 8, 5] : List UInt8) <+: [7, 8, 9, 5] := hrun.last hs 4 _ hsock
  exact absurd hprefix (by decide)

end CppMisc.Reactor
