import CppMisc.Kcp.Outgoing
import CppMisc.Kcp.Messages

/-!
# Programs over two endpoints

A program drives its endpoints by calls, and datagrams arrive at them; `Net.Live` is what carries over from one of
these moves to the next one. It is the invariant `Connected` of message mode together with room for the numbers
of some more calls, each of which gives out fewer than `2 ^ 16`.

What a program sends in one small message and reads with a large enough buffer is taken as a whole (`send_small`,
`length_firstMessage`).
-/

set_option autoImplicit false

namespace CppMisc.Kcp

open CppMisc.Library

universe u

/-- What `kcp1` and `kcp2` have. -/
def sides {α : Type u} (one two : α) : Side → α
  | .one => one
  | .two => two

variable {α : Type u}

@[simp] theorem sides_one (a b : α) : sides a b .one = a := rfl

@[simp] theorem sides_two (a b : α) : sides a b .two = b := rfl

@[simp] theorem update_sides_one (a b c : α) : Function.update (sides a b) .one c = sides c b := by
  funext x
  cases x with
  | one => exact Function.update_self _ _ _
  | two => exact Function.update_of_ne (fun h => Side.noConfusion h) _ _

@[simp] theorem update_sides_two (a b c : α) : Function.update (sides a b) .two c = sides a c := by
  funext x
  cases x with
  | one => exact Function.update_of_ne (fun h => Side.noConfusion h) _ _
  | two => exact Function.update_self _ _ _

/-- The endpoints are connected in message mode, with room for the numbers of `n` more calls. -/
structure Net.Live (c : UInt32) (n : Nat) (s : Net) : Prop where
  connected : ∃ h p, Connected Messages c 0 h p s
  room : ∀ x, (s.kcp x).sndNxt.toNat + n * 2 ^ 16 ≤ 2 ^ 31

namespace Net.Live

variable {c : UInt32} {n : Nat} {s : Net}

/-- A call gives out fewer than `2 ^ 16` numbers. -/
theorem sndNxt_call (h : s.Live c n) (x : Side) (call : Call) :
    ((s.kcp x).call call).kcp.sndNxt.toNat < (s.kcp x).sndNxt.toNat + 2 ^ 16 := by
  obtain ⟨hist, p, hs⟩ := h.connected
  have hf := hs.follows x
  have hnxt : (s.kcp x).sndNxt.toNat = (hist x).length := hf.sent.nxt
  have hflushed : ∀ {r : Ikcpcb × List Bytes} {moved : List Seg},
      Ikcpcb.Follows.Flushed c (hist x) (hist x.peer) (p x) (s.kcp x) r moved →
      r.1.sndNxt.toNat < (s.kcp x).sndNxt.toNat + 2 ^ 16 := by
    intro r moved hr
    have hnext : r.1.sndNxt.toNat = (hist x ++ moved.map Seg.frag).length := hr.follows.sent.nxt
    have hfew := hr.few
    rw [hnext, hnxt, List.length_append, List.length_map]
    omega
  have hsame : ∀ {k : Ikcpcb}, k.sndNxt = (s.kcp x).sndNxt →
      k.sndNxt.toNat < (s.kcp x).sndNxt.toNat + 2 ^ 16 := by
    intro k hk
    rw [hk]
    omega
  cases call with
  | send buffer =>
      obtain ⟨queue, nque, hview⟩ := view_send (s.kcp x) buffer buffer.length
      exact hsame (congrArg (fun v => v.sender.nxt) hview)
  | recv len => exact hsame (congrArg (fun v => v.sender.nxt) (view_recv (s.kcp x) len))
  | update current =>
      obtain ⟨moved, hr⟩ := hf.update (hs.short x) (hs.short x.peer) current
      exact hflushed hr
  | flush =>
      obtain ⟨moved, hr⟩ := hf.flush (hs.short x) (hs.short x.peer)
      exact hflushed hr
  | setmtu mtu =>
      apply hsame
      show (setmtu (s.kcp x) mtu).1.sndNxt = _
      unfold setmtu
      split <;> rfl
  | interval interval => exact hsame rfl
  | nodelay nodelay interval resend nc => exact hsame rfl
  | wndsize sndwnd rcvwnd => exact hsame rfl

theorem call (h : s.Live c (n + 1)) (x : Side) (call : Call) : (s.call x call).Live c n where
  connected := by
    obtain ⟨hist, p, hs⟩ := h.connected
    refine hs.call Messages.keeps call (fun y => ?_) fun _ _ => trivial
    have := h.room y
    omega
  room := by
    intro y
    have hroom := h.room y
    show (Function.update s.kcp x ((s.kcp x).call call).kcp y).sndNxt.toNat + n * 2 ^ 16 ≤ 2 ^ 31
    by_cases hy : y = x
    · have hnext := h.sndNxt_call x call
      rw [hy] at hroom
      rw [hy, Function.update_self]
      omega
    · rw [Function.update_of_ne hy]
      exact le_trans (Nat.add_le_add_left (Nat.mul_le_mul_right _ (Nat.le_succ n)) _) hroom

/-- A datagram that the other side sent, or one of another conversation. -/
def Arrives (s : Net) (x : Side) (d : Bytes) : Prop :=
  d ∈ s.wire x.peer ∨ d.length < overhead ∨ getconv d ≠ (s.kcp x).conv

instance (s : Net) (x : Side) (d : Bytes) : Decidable (Arrives s x d) :=
  inferInstanceAs (Decidable (_ ∨ _))

theorem arrive (h : s.Live c n) {x : Side} {d : Bytes} (hd : Arrives s x d) : (s.arrive x d).Live c n where
  connected := by
    obtain ⟨hist, p, hs⟩ := h.connected
    rcases hd with hsent | hstray
    · exact ⟨hist, p, hs.deliver hsent⟩
    · exact ⟨hist, p, hs.stray hstray⟩
  room := by
    intro y
    have hroom := h.room y
    show (Function.update s.kcp x (input (s.kcp x) d).1 y).sndNxt.toNat + n * 2 ^ 16 ≤ 2 ^ 31
    by_cases hy : y = x
    · rw [hy, Function.update_self, (Shrinks.input (s.kcp x) d).nxt, ← hy]
      exact hroom
    · rw [Function.update_of_ne hy]
      exact hroom

theorem conv (h : s.Live c n) (x : Side) : (s.kcp x).conv = c := by
  obtain ⟨hist, p, hs⟩ := h.connected
  exact (hs.follows x).conv

theorem mono {m : Nat} (h : s.Live c n) (hm : m ≤ n) : s.Live c m where
  connected := h.connected
  room := by
    intro y
    exact le_trans (Nat.add_le_add_left (Nat.mul_le_mul_right _ hm) _) (h.room y)

theorem start (c : UInt32) (hn : n ≤ 2 ^ 15) : (start c fun _ => 0).Live c n where
  connected := ⟨_, _, Connected.start Messages.keeps.empty c 0⟩
  room := by
    intro y
    show (0 : UInt32).toNat + n * 2 ^ 16 ≤ 2 ^ 31
    have hzero : (0 : UInt32).toNat = 0 := rfl
    omega

/-- A change of the settings that are no part of the two sides of an endpoint. -/
theorem retune (h : s.Live c n) {x : Side} {k : Ikcpcb} (hview : k.view = (s.kcp x).view) :
    ({ s with kcp := Function.update s.kcp x k } : Net).Live c n where
  connected := by
    obtain ⟨hist, p, hs⟩ := h.connected
    exact ⟨hist, p, hs.quiet ((hs.follows x).of_view hview) (Ikcpcb.Follows.advance_of_view _ hview)⟩
  room := by
    intro y
    show (Function.update s.kcp x k y).sndNxt.toNat + n * 2 ^ 16 ≤ 2 ^ 31
    by_cases hy : y = x
    · have hnext : k.sndNxt = (s.kcp x).sndNxt := congrArg (fun v => v.sender.nxt) hview
      rw [hy, Function.update_self, hnext]
      exact h.room x
    · rw [Function.update_of_ne hy]
      exact h.room y

/-- What is read at one side is a front part of what was sent at the other. -/
theorem prefixes (h : s.Live c n) (x : Side) : s.delivered x.peer <+: s.accepted x := by
  obtain ⟨hist, p, hs⟩ := h.connected
  obtain ⟨rest, hacc, -⟩ := hs.content x
  exact ⟨rest, hacc.symm⟩

theorem stream (h : s.Live c n) (x : Side) : (s.kcp x).stream = 0 := by
  obtain ⟨hist, p, hs⟩ := h.connected
  exact hs.mode x

end Net.Live

/-! ## Rows of calls -/

/-- Some calls at one side, one behind the other. -/
def Net.calls (s : Net) (x : Side) (cs : List Call) : Net := cs.foldl (fun t c => t.call x c) s

theorem Net.Live.calls {c : UInt32} {x : Side} {cs : List Call} :
    ∀ {n : Nat} {s : Net}, s.Live c (n + cs.length) → (s.calls x cs).Live c n := by
  induction cs with
  | nil => exact fun h => h
  | cons first rest ih =>
      intro n s h
      rw [List.length_cons, ← Nat.add_assoc] at h
      exact ih (h.call x first)

/-- A call that sets no size keeps it at both sides. -/
theorem mtu_call (s : Net) (x : Side) {call : Call} (hcall : ∀ m, call ≠ .setmtu m) (y : Side) :
    ((s.call x call).kcp y).mtu = (s.kcp y).mtu := by
  show (Function.update s.kcp x ((s.kcp x).call call).kcp y).mtu = (s.kcp y).mtu
  by_cases hy : y = x
  · rw [hy, Function.update_self]
    apply mtu_event (e := .call call)
    intro m hm
    exact hcall m (Event.call.inj hm)
  · rw [Function.update_of_ne hy]

theorem mtu_arrive (s : Net) (x : Side) (d : Bytes) (y : Side) : ((s.arrive x d).kcp y).mtu = (s.kcp y).mtu := by
  show (Function.update s.kcp x (input (s.kcp x) d).1 y).mtu = (s.kcp y).mtu
  by_cases hy : y = x
  · rw [hy, Function.update_self]
    exact (Shrinks.input (s.kcp x) d).mtu
  · rw [Function.update_of_ne hy]

theorem mtu_calls (x : Side) {cs : List Call} (hcs : ∀ call ∈ cs, ∀ m, call ≠ .setmtu m) (y : Side) :
    ∀ s : Net, ((s.calls x cs).kcp y).mtu = (s.kcp y).mtu := by
  induction cs with
  | nil => exact fun _ => rfl
  | cons first rest ih =>
      intro s
      rw [List.forall_mem_cons] at hcs
      exact (ih hcs.2 (s.call x first)).trans (mtu_call s x hcs.1 y)

/-! ## Small messages -/

/-- `ikcp_recv` returns the size that `ikcp_peeksize` finds. -/
theorem length_firstMessage {kcp : Ikcpcb} (hsize : 0 ≤ peeksize kcp) :
    ((firstMessage kcp).length : Int) = peeksize kcp := by
  have hloop : ∀ queue : List Seg, ((takeMessage queue).1.flatMap Seg.data).length = peekLoop queue := by
    intro queue
    induction queue with
    | nil => rfl
    | cons seg rest ih =>
        unfold takeMessage peekLoop
        split
        · rw [List.flatMap_singleton, Seg.len]
        · rw [List.flatMap_cons, List.length_append, ih, Seg.len]
  rw [firstMessage, hloop]
  unfold peeksize at hsize ⊢
  cases hqueue : kcp.rcvQueue with
  | nil =>
      rw [hqueue] at hsize
      exact absurd hsize (show ¬ (0 : Int) ≤ -1 by decide)
  | cons seg rest =>
      rw [hqueue] at hsize
      dsimp only at hsize ⊢
      by_cases hlast : seg.frg = 0
      · rw [if_pos hlast, peekLoop, if_pos hlast]
      · rw [if_neg hlast] at hsize ⊢
        split at hsize
        · exact absurd hsize (by decide)
        · rename_i hall
          rw [if_neg hall]

/-- What is read fits into the buffer that it is read into. -/
theorem length_recv_le {kcp : Ikcpcb} {len : Int} (hread : 0 ≤ (recv kcp len).2.1) :
    (recv kcp len).2.1 = (recv kcp len).2.2.length ∧ ((recv kcp len).2.2.length : Int) ≤ |len| := by
  rcases recv_cases kcp len with ⟨rc, hneg, heq⟩ | ⟨-, hsize, hfits, heq⟩
  · rw [heq] at hread
    exact absurd hread (not_le.2 hneg)
  · rw [heq]
    refine ⟨rfl, ?_⟩
    rw [length_firstMessage hsize]
    exact hfits

/-- A message of up to 126 fragments is accepted. -/
theorem send_small {kcp : Ikcpcb} (hmode : kcp.stream = 0) {buffer : Bytes} (hlength : buffer.length ≤ 126 * kcp.mss) :
    (send kcp buffer buffer.length).2 = 0 := by
  have hcount : ¬ fragmentCount kcp.mss buffer.length ≥ wndRcv.toNat := by
    have hpos := mss_pos kcp
    have hbound : wndRcv.toNat = 128 := rfl
    unfold fragmentCount
    split
    · omega
    · have hdiv : (buffer.length + kcp.mss - 1) / kcp.mss < 128 := by
        rw [Nat.div_lt_iff_lt_mul hpos]
        omega
      omega
  rw [send_of_message hmode]
  unfold sendRest
  dsimp only
  rw [if_neg hcount]

end CppMisc.Kcp
