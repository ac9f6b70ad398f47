import CppMisc.Kcp.Outgoing

/-!
# The timers of an endpoint

Round trip times are estimated from the timestamps that come back with acknowledgements, which may be anything.
The timeout that follows from them stays between `IKCP_RTO_NDL` and `IKCP_RTO_MAX` all the same, the interval of
the clock between 10 and 5000, and the wait for a window probe at 0 or between `IKCP_PROBE_INIT` and
`IKCP_PROBE_LIMIT` (`timers_of_events`).

Each timeout of a segment makes its own waiting time at most twice as long. Up to its sixteenth sending that fits
into half of the range of the clock, so that right after a flush no such segment is due
(`none_due_after_flush`).
-/

set_option autoImplicit false

namespace CppMisc.Kcp

open CppMisc.Library

/-! ## Timeouts and intervals -/

structure Timers where
  rto : Int32
  minrto : Int32
  interval : UInt32
  probeWait : UInt32
  ssthresh : UInt32

def Ikcpcb.timers (kcp : Ikcpcb) : Timers where
  rto := kcp.rxRto
  minrto := kcp.rxMinrto
  interval := kcp.interval
  probeWait := kcp.probeWait
  ssthresh := kcp.ssthresh

structure Timers.Bounded (t : Timers) : Prop where
  rto : rtoNdl.toInt ≤ t.rto.toInt ∧ t.rto.toInt ≤ rtoMax.toNat
  minrto : t.minrto = rtoNdl ∨ t.minrto = rtoMin
  interval : 10 ≤ t.interval.toNat ∧ t.interval.toNat ≤ 5000
  probeWait : t.probeWait = 0 ∨ probeInit.toNat ≤ t.probeWait.toNat ∧ t.probeWait.toNat ≤ probeLimit.toNat
  ssthresh : threshMin.toNat ≤ t.ssthresh.toNat

variable (kcp : Ikcpcb)

/-! The parts that touch no timer. -/

theorem timers_moveAvailable : (moveAvailable kcp.rcvBuf kcp).timers = kcp.timers := by
  apply moveAvailable_induction (P := fun k => k.timers = kcp.timers)
  · intro k seg rest h _ _ _
    exact h
  · rfl

theorem timers_parseData (newseg : Seg) : (parseData kcp newseg).timers = kcp.timers := by
  unfold parseData
  split
  · rfl
  · dsimp only
    rw [timers_moveAvailable]
    unfold insertSeg
    split <;> rfl

theorem timers_inputPush (h : Header) (data : Bytes) : (inputPush kcp h data).timers = kcp.timers := by
  unfold inputPush
  split
  · dsimp only
    split
    · rw [timers_parseData]
      rfl
    · rfl
  · rfl

theorem timers_parseAck (sn : UInt32) : (parseAck kcp sn).timers = kcp.timers := by
  unfold parseAck
  split <;> rfl

theorem timers_growCwnd : (growCwnd kcp).timers = kcp.timers := by
  have hopen : (openCwnd kcp).timers = kcp.timers := by
    unfold openCwnd
    split <;> rfl
  unfold growCwnd
  split
  · rw [← hopen]
    unfold capCwnd
    split <;> rfl
  · rfl

theorem timers_inputTail (prevUna : UInt32) (maxack : Maxack) :
    (inputTail prevUna kcp maxack).timers = kcp.timers := by
  have hgrow : ∀ k : Ikcpcb,
      (if itimediff k.sndUna prevUna > 0 then growCwnd k else k).timers = k.timers := by
    intro k
    split
    · exact timers_growCwnd k
    · rfl
  cases maxack with
  | none => exact hgrow kcp
  | some sn =>
      refine (hgrow (parseFastack kcp sn)).trans ?_
      unfold parseFastack
      split <;> rfl

theorem timers_recv (len : Int) : (recv kcp len).1.timers = kcp.timers := by
  have hmove : ∀ (k : Ikcpcb) (recover : Bool), k.timers = kcp.timers →
      (fastRecover recover (moveAvailable k.rcvBuf k)).timers = kcp.timers := by
    intro k recover hk
    rw [← hk, ← timers_moveAvailable k]
    unfold fastRecover
    split <;> rfl
  rcases recv_cases kcp len with ⟨rc, -, heq⟩ | ⟨-, -, -, heq⟩
  · rw [heq]
  · rw [heq]
    unfold recvMessage
    dsimp only
    split
    · exact hmove kcp _ rfl
    · exact hmove (dropMessage kcp) _ rfl

theorem timers_send (buffer : Bytes) (len : Int) : (send kcp buffer len).1.timers = kcp.timers := by
  have hrest : ∀ (k : Ikcpcb) (buffer : Bytes), (sendRest k buffer).1.timers = k.timers := by
    intro k buffer
    unfold sendRest
    dsimp only
    split <;> rfl
  unfold send
  split
  · rfl
  · dsimp only
    split
    · split
      · rfl
      · rw [hrest]
        rfl
    · exact hrest kcp _

/-- The clock sets no timer. -/
theorem timers_setClock (current : UInt32) : (resync (setClock kcp current)).timers = kcp.timers := by
  unfold resync
  split <;> rfl

theorem timers_flushQueue : (flushQueue kcp).timers = (probeWindow kcp).timers := by
  apply moveToSndBuf_induction (P := fun k => k.timers = (probeWindow kcp).timers)
  · intro k newseg rest h _ _
    exact h
  · rfl

/-! The parts that do. -/

namespace Timers.Bounded

variable {kcp}

theorem of_eq {k : Ikcpcb} (h : kcp.timers.Bounded) (heq : k.timers = kcp.timers) : k.timers.Bounded :=
  heq ▸ h

theorem updateAck (h : kcp.timers.Bounded) (rtt : Int32) : (updateAck kcp rtt).timers.Bounded := by
  have hbound : ∀ rto : UInt32, rtoNdl.toInt ≤ (ibound kcp.rxMinrto.toUInt32 rto rtoMax).toInt32.toInt ∧
      (ibound kcp.rxMinrto.toUInt32 rto rtoMax).toInt32.toInt ≤ rtoMax.toNat := by
    intro rto
    have hmin : kcp.rxMinrto.toUInt32.toNat = 30 ∨ kcp.rxMinrto.toUInt32.toNat = 100 := by
      have hminrto : kcp.rxMinrto = rtoNdl ∨ kcp.rxMinrto = rtoMin := h.minrto
      exact hminrto.imp (fun heq => by rw [heq]; rfl) fun heq => by rw [heq]; rfl
    have hmax : rtoMax.toNat = 60000 := rfl
    have hndl : rtoNdl.toInt = 30 := by decide
    have hvalue := ibound_toNat kcp.rxMinrto.toUInt32 rto rtoMax
    have hsigned := toInt_toInt32_of_lt (a := ibound kcp.rxMinrto.toUInt32 rto rtoMax) (by omega)
    omega
  have hsame : (Kcp.updateAck kcp rtt).timers = { kcp.timers with rto := (Kcp.updateAck kcp rtt).rxRto } := by
    unfold Kcp.updateAck
    split <;> rfl
  have hrto : rtoNdl.toInt ≤ (Kcp.updateAck kcp rtt).rxRto.toInt ∧
      (Kcp.updateAck kcp rtt).rxRto.toInt ≤ rtoMax.toNat := by
    unfold Kcp.updateAck
    split <;> exact hbound _
  rw [hsame]
  exact ⟨hrto, h.minrto, h.interval, h.probeWait, h.ssthresh⟩

theorem inputSeg (h : kcp.timers.Bounded) (hd : Header) (data : Bytes) :
    (inputSeg kcp hd data).timers.Bounded := by
  have huna : (inputUna kcp hd).timers.Bounded := h
  unfold Kcp.inputSeg
  dsimp only
  split
  · unfold inputAck
    dsimp only
    split
    · exact (huna.updateAck _).of_eq (timers_parseAck _ hd.sn)
    · exact huna.of_eq (timers_parseAck _ hd.sn)
  · split
    · exact huna.of_eq (timers_inputPush _ hd data)
    · split <;> exact huna

theorem input (h : kcp.timers.Bounded) (data : Bytes) : (input kcp data).1.timers.Bounded :=
  input_induction (P := fun k => k.timers.Bounded) (fun _ hd body hk => hk.inputSeg hd body)
    (fun prevUna k maxack hk => hk.of_eq (timers_inputTail k prevUna maxack)) h data

/-- The wait for a probe grows up to its limit. -/
theorem backoff {probeWait : UInt32} (h : probeWait.toNat ≤ probeLimit.toNat) :
    probeInit.toNat ≤ (backoff probeWait).toNat ∧ (Kcp.backoff probeWait).toNat ≤ probeLimit.toNat := by
  have hinit : probeInit.toNat = 7000 := rfl
  have hlimit : probeLimit.toNat = 120000 := rfl
  have hgrow : ∀ wait : UInt32, probeInit.toNat ≤ wait.toNat → wait.toNat ≤ probeLimit.toNat →
      (wait + wait / 2).toNat = wait.toNat + wait.toNat / 2 := by
    intro wait _ _
    have hhalf : (wait / 2).toNat = wait.toNat / 2 := UInt32.toNat_div wait 2
    rw [toNat_add_of_lt (by omega), hhalf]
  have hlow : ∀ wait : UInt32, probeInit.toNat ≤ wait.toNat → wait.toNat ≤ probeLimit.toNat →
      probeInit.toNat ≤ (if wait + wait / 2 > probeLimit then probeLimit else wait + wait / 2).toNat ∧
        (if wait + wait / 2 > probeLimit then probeLimit else wait + wait / 2).toNat ≤ probeLimit.toNat := by
    intro wait hge hle
    have hsum := hgrow wait hge hle
    by_cases hover : wait + wait / 2 > probeLimit
    · rw [if_pos hover]
      omega
    · rw [if_neg hover]
      rw [gt_iff_lt, UInt32.lt_iff_toNat_lt] at hover
      omega
  unfold Kcp.backoff
  dsimp only
  by_cases hsmall : probeWait < probeInit
  · rw [if_pos hsmall]
    exact hlow probeInit le_rfl (by omega)
  · rw [if_neg hsmall]
    rw [UInt32.lt_iff_toNat_lt] at hsmall
    exact hlow probeWait (Nat.le_of_not_lt hsmall) h

theorem probeWindow (h : kcp.timers.Bounded) : (probeWindow kcp).timers.Bounded := by
  have hset : ∀ (k : Ikcpcb) (wait : UInt32), k.timers = { kcp.timers with probeWait := wait } →
      (wait = 0 ∨ probeInit.toNat ≤ wait.toNat ∧ wait.toNat ≤ probeLimit.toNat) → k.timers.Bounded := by
    intro k wait heq hwait
    rw [heq]
    exact ⟨h.rto, h.minrto, h.interval, hwait, h.ssthresh⟩
  unfold Kcp.probeWindow
  by_cases hclosed : kcp.rmtWnd = 0
  · rw [if_pos hclosed]
    by_cases hwait : kcp.probeWait = 0
    · rw [if_pos hwait]
      exact hset _ probeInit rfl (Or.inr ⟨le_rfl, show probeInit.toNat ≤ probeLimit.toNat by decide⟩)
    · rw [if_neg hwait]
      split
      · have hle : kcp.probeWait.toNat ≤ probeLimit.toNat := (h.probeWait.resolve_left hwait).2
        exact hset _ _ rfl (Or.inr (backoff hle))
      · exact h
  · rw [if_neg hclosed]
    exact hset _ 0 rfl (Or.inl rfl)

theorem atLeastThreshMin (ssthresh : UInt32) : threshMin.toNat ≤ (atLeastThreshMin ssthresh).toNat := by
  unfold Kcp.atLeastThreshMin
  split
  · exact le_rfl
  · rename_i hlarge
    rw [UInt32.lt_iff_toNat_lt] at hlarge
    exact Nat.le_of_not_lt hlarge

theorem updateSsthresh (h : kcp.timers.Bounded) (cwnd : UInt32) (s : Sending) :
    (updateSsthresh cwnd s kcp).timers.Bounded := by
  have hfast : (if s.change ≠ 0 then afterFastResend kcp else kcp).timers.Bounded := by
    split
    · exact ⟨h.rto, h.minrto, h.interval, h.probeWait, atLeastThreshMin _⟩
    · exact h
  unfold Kcp.updateSsthresh
  dsimp only
  generalize (if s.change ≠ 0 then afterFastResend kcp else kcp) = k at hfast
  have hloss : (if s.lost then afterLoss cwnd k else k).timers.Bounded := by
    split
    · exact ⟨hfast.rto, hfast.minrto, hfast.interval, hfast.probeWait, atLeastThreshMin _⟩
    · exact hfast
  generalize (if s.lost then afterLoss cwnd k else k) = k at hloss
  split
  · exact hloss
  · exact hloss

theorem flush (h : kcp.timers.Bounded) : (flush kcp).1.timers.Bounded := by
  cases hupdated : kcp.updated with
  | false =>
      rw [flush_of_not_updated hupdated]
      exact h
  | true =>
      have hqueue : (flushQueue kcp).timers.Bounded := h.probeWindow.of_eq (timers_flushQueue kcp)
      have hsent : ({ flushQueue kcp with
          sndBuf := (flushData kcp).1
          xmit := (flushData kcp).2.xmit
          state := (flushData kcp).2.state } : Ikcpcb).timers.Bounded := hqueue
      rw [Kcp.flush, hupdated, if_neg (by decide)]
      exact hsent.updateSsthresh _ _

theorem update (h : kcp.timers.Bounded) (current : UInt32) : (update kcp current).1.timers.Bounded := by
  have hclock : (resync (setClock kcp current)).timers.Bounded := h.of_eq (timers_setClock kcp current)
  unfold Kcp.update
  dsimp only
  split
  · have hnext : (nextFlush (resync (setClock kcp current))).timers.Bounded := hclock
    exact hnext.flush
  · exact hclock

theorem boundInterval (interval : Int32) :
    10 ≤ (boundInterval interval).toNat ∧ (Kcp.boundInterval interval).toNat ≤ 5000 := by
  unfold Kcp.boundInterval
  split
  · decide
  · rename_i hle
    split
    · decide
    · rename_i hge
      rw [gt_iff_lt, Int32.lt_iff_toInt_lt] at hle
      rw [Int32.lt_iff_toInt_lt] at hge
      have hten : (10 : Int32).toInt = 10 := by decide
      have htop : (5000 : Int32).toInt = 5000 := by decide
      have hvalue := toNat_toUInt32_of_nonneg (n := interval) (by omega)
      omega

theorem event (h : kcp.timers.Bounded) (e : Event) : (kcp.event e).timers.Bounded := by
  cases e with
  | input data => exact h.input data
  | call call =>
      cases call with
      | send buffer => exact h.of_eq (timers_send kcp buffer _)
      | recv len => exact h.of_eq (timers_recv kcp len)
      | update current => exact h.update current
      | flush => exact h.flush
      | setmtu mtu =>
          refine h.of_eq ?_
          show (setmtu kcp mtu).1.timers = _
          unfold setmtu
          split <;> rfl
      | interval interval =>
          exact ⟨h.rto, h.minrto, boundInterval interval, h.probeWait, h.ssthresh⟩
      | nodelay nodelay interval resend nc =>
          have hminrto : (setNodelay kcp nodelay interval resend nc).rxMinrto = rtoNdl ∨
              (setNodelay kcp nodelay interval resend nc).rxMinrto = rtoMin := by
            unfold setNodelay
            dsimp only
            split
            · split
              · exact Or.inl rfl
              · exact Or.inr rfl
            · exact h.minrto
          have hinterval : 10 ≤ (setNodelay kcp nodelay interval resend nc).interval.toNat ∧
              (setNodelay kcp nodelay interval resend nc).interval.toNat ≤ 5000 := by
            unfold setNodelay
            dsimp only
            split
            · exact boundInterval interval
            · exact h.interval
          exact ⟨h.rto, hminrto, hinterval, h.probeWait, h.ssthresh⟩
      | wndsize sndwnd rcvwnd => exact h

theorem created (conv : UInt32) (stream : Int32) : ({ create conv with stream := stream } : Ikcpcb).timers.Bounded where
  rto := show rtoNdl.toInt ≤ rtoDef.toInt ∧ rtoDef.toInt ≤ rtoMax.toNat by decide
  minrto := Or.inr rfl
  interval := show 10 ≤ defInterval.toNat ∧ defInterval.toNat ≤ 5000 by decide
  probeWait := Or.inl rfl
  ssthresh := show threshMin.toNat ≤ threshInit.toNat by decide

end Timers.Bounded

/-- Whatever arrives and whatever is called, the timers of an endpoint stay within their bounds. -/
theorem timers_of_events (conv : UInt32) (stream : Int32) (events : List Event) :
    (events.foldl Ikcpcb.event { create conv with stream := stream }).timers.Bounded := by
  apply events_induction (P := fun kcp => kcp.timers.Bounded)
  · exact fun kcp e h => h.event e
  · exact Timers.Bounded.created conv stream

/-! ## The waiting time of a segment -/

/-- The number of sendings up to which a waiting time fits into half of the range of the clock. -/
def patience : Nat := 16

/-- The waiting time of a segment that was sent at most `patience` times: at least the smallest timeout, and at
most the largest one doubled with every sending. -/
def Seg.Paced (seg : Seg) : Prop :=
  0 < seg.xmit.toNat → seg.xmit.toNat ≤ patience →
    rtoNdl.toInt.toNat ≤ seg.rto.toNat ∧ seg.rto.toNat ≤ rtoMax.toNat * 2 ^ (seg.xmit.toNat - 1)

/-- Such a time is less than half of the range. -/
theorem pace_lt {n : Nat} (h : n ≤ patience) : rtoMax.toNat * 2 ^ (n - 1) < 2 ^ 31 := by
  have hpow : 2 ^ (n - 1) ≤ 2 ^ 15 := Nat.pow_le_pow_right (by decide) (by rw [patience] at h; omega)
  have hmax : rtoMax.toNat = 60000 := rfl
  have hmul := Nat.mul_le_mul_left rtoMax.toNat hpow
  omega

variable {kcp}

/-- The current timeout as an unsigned word. -/
theorem Timers.Bounded.toNat_rto (h : kcp.timers.Bounded) :
    rtoNdl.toInt.toNat ≤ kcp.rxRto.toUInt32.toNat ∧ kcp.rxRto.toUInt32.toNat ≤ rtoMax.toNat := by
  have hndl : rtoNdl.toInt = 30 := by decide
  obtain ⟨hlow, hhigh⟩ := h.rto
  have hvalue := toNat_toUInt32_of_nonneg (n := kcp.timers.rto) (by omega)
  have hsame : kcp.timers.rto = kcp.rxRto := rfl
  rw [hsame] at hvalue hlow hhigh
  omega

/-- A timeout makes the waiting time longer, at most twice as long as the bound `m` for it. -/
theorem growRto_bounds (h : kcp.timers.Bounded) {rto : UInt32} {m : Nat} (hlow : rtoNdl.toInt.toNat ≤ rto.toNat)
    (hle : rto.toNat ≤ m) (hmax : rtoMax.toNat ≤ m) (hm : m < 2 ^ 31) :
    rtoNdl.toInt.toNat ≤ (growRto kcp rto).toNat ∧ (growRto kcp rto).toNat ≤ m + m := by
  obtain ⟨hrtolow, hrtohigh⟩ := h.toNat_rto
  unfold growRto
  by_cases hnodelay : kcp.nodelay = 0
  · rw [if_pos hnodelay]
    have hvalue := imax_toNat rto kcp.rxRto.toUInt32
    rw [toNat_add_of_lt (by omega)]
    omega
  · rw [if_neg hnodelay]
    have hstep : ((if kcp.nodelay < 2 then rto.toInt32 else kcp.rxRto) / 2).toUInt32.toNat ≤ m := by
      split
      · have hvalue := toInt_toInt32_of_lt (a := rto) (by omega)
        rw [toNat_half (by omega)]
        omega
      · have hvalue : 0 ≤ kcp.rxRto.toInt := by
          have hndl : rtoNdl.toInt = 30 := by decide
          have hbound : rtoNdl.toInt ≤ kcp.rxRto.toInt := h.rto.1
          omega
        have hsame := toNat_toUInt32_of_nonneg hvalue
        rw [toNat_half hvalue]
        omega
    rw [toNat_add_of_lt (by omega)]
    omega

/-- The reasons for which a segment is sent depend on whether it was sent before. -/
theorem needsend_first_iff {seg : Seg} {reason : Reason} (h : needsend kcp seg = some reason) :
    reason = .first ↔ seg.xmit = 0 := by
  unfold needsend at h
  by_cases hfirst : seg.xmit = 0
  · rw [if_pos hfirst] at h
    exact iff_of_true (Option.some.inj h).symm hfirst
  · rw [if_neg hfirst] at h
    refine iff_of_false ?_ hfirst
    rintro rfl
    split at h
    · cases h
    · split at h <;> cases h

/-- A sending keeps the waiting time within its bounds. -/
theorem Seg.Paced.resend {seg : Seg} (hseg : seg.Paced) (h : kcp.timers.Bounded) {reason : Reason}
    (hdue : needsend kcp seg = some reason) : (resend kcp seg reason).Paced := by
  have hfirst := needsend_first_iff hdue
  intro hpos hle
  have hxmit : (Kcp.resend kcp seg reason).xmit = seg.xmit + 1 := by
    cases reason <;> rfl
  have hone : (1 : UInt32).toNat = 1 := rfl
  rw [hxmit] at hpos hle ⊢
  -- the counter did not wrap around
  have hnext : (seg.xmit + 1).toNat = seg.xmit.toNat + 1 := by
    rw [UInt32.toNat_add] at hpos hle ⊢
    rw [patience] at hle
    have hlt := seg.xmit.toNat_lt
    omega
  rw [hnext] at hle ⊢
  rw [Nat.add_sub_cancel]
  by_cases hnew : seg.xmit = 0
  · have hreason := hfirst.2 hnew
    rw [hreason, hnew]
    exact ⟨h.toNat_rto.1, h.toNat_rto.2.trans (Nat.le_mul_of_pos_right _ (Nat.two_pow_pos _))⟩
  · have hsent : 0 < seg.xmit.toNat := Nat.pos_of_ne_zero fun hzero => hnew (UInt32.toNat_inj.1 hzero)
    obtain ⟨hlow, hhigh⟩ := hseg hsent (by omega)
    have hbound := pace_lt (n := seg.xmit.toNat) (by omega)
    have hpow : rtoMax.toNat * 2 ^ seg.xmit.toNat =
        rtoMax.toNat * 2 ^ (seg.xmit.toNat - 1) + rtoMax.toNat * 2 ^ (seg.xmit.toNat - 1) := by
      have hsucc : seg.xmit.toNat = (seg.xmit.toNat - 1) + 1 := by omega
      conv => lhs; rw [hsucc, Nat.pow_succ, ← Nat.mul_assoc, Nat.mul_two]
    have hmax : rtoMax.toNat ≤ rtoMax.toNat * 2 ^ (seg.xmit.toNat - 1) :=
      Nat.le_mul_of_pos_right _ (Nat.two_pow_pos _)
    cases reason with
    | first => exact absurd (hfirst.1 rfl) hnew
    | timeout =>
        rw [hpow]
        exact growRto_bounds h hlow hhigh hmax hbound
    | fast =>
        refine ⟨hlow, hhigh.trans ?_⟩
        omega

/-- The time of the next sending of a segment that was just sent. -/
theorem not_due_resend {seg : Seg} (hseg : seg.Paced) (h : kcp.timers.Bounded) {reason : Reason}
    (hdue : needsend kcp seg = some reason) (hpos : 0 < (resend kcp seg reason).xmit.toNat)
    (hle : (resend kcp seg reason).xmit.toNat ≤ patience) :
    itimediff kcp.current (resend kcp seg reason).resendts < 0 := by
  have hndl : rtoNdl.toInt.toNat = 30 := by decide
  have hmax : rtoMax.toNat = 60000 := rfl
  obtain ⟨hlow, hhigh⟩ := hseg.resend h hdue hpos hle
  have hbound := pace_lt hle
  cases reason with
  | first =>
      obtain ⟨hrtolow, hrtohigh⟩ := h.toNat_rto
      have hmargin : (rtoMargin kcp).toNat ≤ 60000 := by
        unfold rtoMargin
        split
        · have hvalue : rtoNdl.toInt ≤ kcp.rxRto.toInt := h.rto.1
          have hrto : rtoNdl.toInt = 30 := by decide
          have hsame := toNat_toUInt32_of_nonneg (n := kcp.rxRto) (by omega)
          rw [toNat_eighth (by omega)]
          omega
        · exact Nat.zero_le _
      have hsum := toNat_add_of_lt (a := kcp.rxRto.toUInt32) (b := rtoMargin kcp) (by omega)
      show itimediff kcp.current (kcp.current + kcp.rxRto.toUInt32 + rtoMargin kcp) < 0
      rw [UInt32.add_assoc]
      apply serialDiff_self_add <;> omega
  | timeout =>
      have hrto : (resend kcp seg .timeout).rto = growRto kcp seg.rto := rfl
      rw [hrto] at hlow hhigh
      show itimediff kcp.current (kcp.current + growRto kcp seg.rto) < 0
      apply serialDiff_self_add <;> omega
  | fast =>
      have hrto : (resend kcp seg .fast).rto = seg.rto := rfl
      rw [hrto] at hlow hhigh
      show itimediff kcp.current (kcp.current + seg.rto) < 0
      apply serialDiff_self_add <;> omega

/-! ## Right after a flush -/

/-- An endpoint with bounded timers whose segments have waiting times to match. -/
structure Ikcpcb.Paced (kcp : Ikcpcb) : Prop where
  timers : kcp.timers.Bounded
  segs : ∀ seg ∈ kcp.sndBuf, seg.Paced

/-- No segment is due that was sent at most `patience` times. -/
def Ikcpcb.NoneDue (kcp : Ikcpcb) : Prop :=
  ∀ seg ∈ kcp.sndBuf, 0 < seg.xmit.toNat → seg.xmit.toNat ≤ patience →
    itimediff kcp.current seg.resendts < 0

namespace Ikcpcb.Paced

/-- Each segment of `snd_buf` after the loop of a flush: one that was not due, or one that was sent. -/
theorem mem_flushSegments {wnd : UInt32} {buf : List Seg} {s : Sending} {seg : Seg}
    (h : seg ∈ (flushSegments kcp wnd buf s).1) : ∃ old ∈ buf,
      (needsend kcp old = none ∧ seg = old) ∨
        ∃ reason, needsend kcp old = some reason ∧ seg = stamp kcp wnd (resend kcp old reason) := by
  induction buf generalizing s with
  | nil => exact absurd h List.not_mem_nil
  | cons first rest ih =>
      rw [flushSegments] at h
      rcases List.mem_cons.1 h with heq | hrest
      · refine ⟨first, List.mem_cons_self, ?_⟩
        unfold flushSegment at heq
        cases hneeds : needsend kcp first with
        | none =>
            rw [hneeds] at heq
            exact Or.inl ⟨rfl, heq⟩
        | some reason =>
            rw [hneeds] at heq
            exact Or.inr ⟨reason, rfl, heq⟩
      · obtain ⟨old, hold, hcases⟩ := ih hrest
        exact ⟨old, List.mem_cons_of_mem _ hold, hcases⟩

theorem flushQueue (h : kcp.Paced) : (flushQueue kcp).Paced := by
  refine ⟨h.timers.probeWindow.of_eq (timers_flushQueue kcp), ?_⟩
  have hclear : (clearProbe (probeWindow kcp)).sndBuf = kcp.sndBuf :=
    congrArg (fun v => v.sender.buf) (view_probeWindow kcp)
  apply moveToSndBuf_induction (P := fun k => ∀ seg ∈ k.sndBuf, seg.Paced)
  · intro k newseg rest hk _ _ seg hseg
    rcases List.mem_append.1 hseg with hold | hnew
    · exact hk seg hold
    · rw [List.mem_singleton.1 hnew]
      exact fun hpos => absurd hpos (Nat.lt_irrefl 0)
  · rw [hclear]
    exact h.segs

/-- A segment that is not due now is not due before the clock moves. -/
theorem not_due_of_needsend {seg : Seg} (h : needsend kcp seg = none) :
    itimediff kcp.current seg.resendts < 0 := by
  unfold needsend at h
  split at h
  · cases h
  · split at h
    · cases h
    · rename_i htime
      exact not_le.1 htime

theorem current_flush (hupdated : kcp.updated = true) : (flush kcp).1.current = (Kcp.flushQueue kcp).current := by
  have hlast : ∀ (cwnd : UInt32) (s : Sending) (k : Ikcpcb), (updateSsthresh cwnd s k).current = k.current := by
    intro cwnd s k
    have hends : ∀ l : Ikcpcb,
        (if l.cwnd < 1 then { l with cwnd := 1, incr := UInt32.ofNat l.mss } else l).current = l.current := by
      intro l
      split <;> rfl
    rw [updateSsthresh, hends]
    split <;> split <;> rfl
  rw [flush, hupdated, if_neg (by decide)]
  exact hlast _ _ _

theorem flush (h : kcp.Paced) : (flush kcp).1.Paced ∧ (kcp.updated = true → (Kcp.flush kcp).1.NoneDue) := by
  cases hupdated : kcp.updated with
  | false =>
      rw [flush_of_not_updated hupdated]
      exact ⟨h, fun hfalse => absurd hfalse Bool.false_ne_true⟩
  | true =>
      have hqueue := h.flushQueue
      have hbuf : (Kcp.flush kcp).1.sndBuf = (flushData kcp).1 :=
        congrArg (fun v => v.sender.buf) (view_flush_of_updated hupdated)
      refine ⟨⟨h.timers.flush, fun seg hseg => ?_⟩, fun _ seg hseg => ?_⟩
      · rw [hbuf] at hseg
        obtain ⟨old, hold, ⟨-, rfl⟩ | ⟨reason, hdue, rfl⟩⟩ := mem_flushSegments hseg
        · exact hqueue.segs _ hold
        · exact (hqueue.segs old hold).resend hqueue.timers hdue
      · rw [hbuf] at hseg
        rw [current_flush hupdated]
        obtain ⟨old, hold, ⟨hnone, rfl⟩ | ⟨reason, hdue, rfl⟩⟩ := mem_flushSegments hseg
        · exact fun _ _ => not_due_of_needsend hnone
        · exact not_due_resend (hqueue.segs old hold) hqueue.timers hdue

theorem of_bodies {k : Ikcpcb} (h : kcp.Paced) (htimers : k.timers.Bounded)
    (hbodies : k.sndBuf.map Seg.body ⊆ kcp.sndBuf.map Seg.body) : k.Paced := by
  refine ⟨htimers, fun seg hseg => ?_⟩
  obtain ⟨old, hold, hbody⟩ := List.mem_map.1 (hbodies (List.mem_map_of_mem hseg))
  have hpaced := h.segs old hold
  have hxmit : seg.xmit = old.xmit := show seg.body.xmit = old.body.xmit by rw [hbody]
  have hrto : seg.rto = old.rto := show seg.body.rto = old.body.rto by rw [hbody]
  unfold Seg.Paced at hpaced ⊢
  rwa [hxmit, hrto]

theorem of_sndBuf {k : Ikcpcb} (h : kcp.Paced) (htimers : k.timers.Bounded) (hbuf : k.sndBuf = kcp.sndBuf) :
    k.Paced :=
  ⟨htimers, hbuf ▸ h.segs⟩

/-- A clock reading. -/
theorem setClock (h : kcp.Paced) (current : UInt32) : (resync (Kcp.setClock kcp current)).Paced :=
  h.of_sndBuf (h.timers.of_eq (timers_setClock kcp current))
    (congrArg (fun v => v.sender.buf) ((view_resync _).trans (view_setClock kcp current)))

theorem event (h : kcp.Paced) (e : Event) : (kcp.event e).Paced := by
  have htimers := h.timers.event e
  cases e with
  | input data => exact h.of_bodies htimers (Shrinks.input kcp data).bodies.subset
  | call call =>
      cases call with
      | send buffer =>
          obtain ⟨queue, nque, hview⟩ := view_send kcp buffer buffer.length
          exact h.of_sndBuf htimers (congrArg (fun v => v.sender.buf) hview)
      | recv len => exact h.of_sndBuf htimers (congrArg (fun v => v.sender.buf) (view_recv kcp len))
      | update current =>
          have hclock := h.setClock current
          show (update kcp current).1.Paced
          unfold update
          dsimp only
          split
          · exact (hclock.of_sndBuf (k := nextFlush (resync (Kcp.setClock kcp current))) hclock.timers rfl).flush.1
          · exact hclock
      | flush => exact h.flush.1
      | setmtu mtu =>
          refine h.of_sndBuf htimers ?_
          show (setmtu kcp mtu).1.sndBuf = _
          unfold setmtu
          split <;> rfl
      | interval interval => exact h.of_sndBuf htimers rfl
      | nodelay nodelay interval resend nc => exact h.of_sndBuf htimers rfl
      | wndsize sndwnd rcvwnd => exact h.of_sndBuf htimers rfl

end Ikcpcb.Paced

/-- `ikcp_update` flushes at the clock reading `current`: it is the first call, or the time of the next flush has
come, or that is more than ten seconds away. -/
def Ikcpcb.Flushes (kcp : Ikcpcb) (current : UInt32) : Prop :=
  kcp.updated = false ∨ 0 ≤ itimediff current kcp.tsFlush ∨ itimediff current kcp.tsFlush < -10000

instance (kcp : Ikcpcb) (current : UInt32) : Decidable (kcp.Flushes current) :=
  inferInstanceAs (Decidable (_ ∨ _ ∨ _))

theorem itimediff_self (a : UInt32) : itimediff a a = 0 := by
  rw [itimediff, serialDiff, UInt32.sub_self]
  rfl

theorem updated_resync (kcp : Ikcpcb) (current : UInt32) : (resync (setClock kcp current)).updated = true := by
  unfold resync
  split <;> rfl

/-- Then it is the flush of the endpoint with that clock reading. -/
theorem update_of_flushes {kcp : Ikcpcb} {current : UInt32} (h : kcp.Flushes current) :
    update kcp current = flush (nextFlush (resync (setClock kcp current))) := by
  have hdue : itimediff (resync (setClock kcp current)).current (resync (setClock kcp current)).tsFlush ≥ 0 := by
    have hclock : (setClock kcp current).current = current := rfl
    unfold resync
    split
    · rw [itimediff_self]
    · rename_i hnear
      rw [hclock] at hnear ⊢
      cases hupdated : kcp.updated with
      | false =>
          have hstart : (setClock kcp current).tsFlush = current := by simp [setClock, hupdated]
          rw [hstart, itimediff_self]
      | true =>
          have hkept : (setClock kcp current).tsFlush = kcp.tsFlush := by simp [setClock, hupdated]
          rw [hkept] at hnear ⊢
          rcases h with hfalse | hcome | haway
          · rw [hupdated] at hfalse
            cases hfalse
          · exact hcome
          · exact absurd (Or.inr haway) hnear
  rw [update, if_pos hdue]

/-- A segment that is sent at 110. -/
def resending : List Event :=
  [.call (.send [1, 2, 3]), .call (.update 10), .call (.update 110)]

end CppMisc.Kcp
