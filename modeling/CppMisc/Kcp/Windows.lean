import CppMisc.Kcp.Sides

/-!
# Windows and counters of an endpoint

An endpoint is at the mercy of what arrives: any bytes can be given to `ikcp_input`, and the application may
make its calls in any order. Whatever happens, the counters stand beside the queues that they count, the two
buffers stay sorted by their distance from the start of their window, also when the sequence numbers wrap
around, and fewer than `2 ^ 16` numbers are in flight.

`Sender.Ordered` and `Receiver.Ordered` are these invariants, with one lemma for each operation.
-/

set_option autoImplicit false

namespace CppMisc.Kcp

open CppMisc.Library

/-! ## The sending side -/

/-- The counters of the sending side are those of its lists, and `snd_buf` holds numbers of the window
from `snd_una` to `snd_nxt` in increasing order. -/
structure Sender.Ordered (s : Sender) : Prop where
  nbuf : s.nbuf = UInt32.ofNat s.buf.length
  nque : s.nque = UInt32.ofNat s.queue.length
  wnd : 0 < s.wnd.toNat
  rmtWnd : s.rmtWnd.toNat < 2 ^ 16
  inflight : ahead s.nxt s.una < 2 ^ 16
  numbers : ∀ seg ∈ s.buf, ahead seg.sn s.una < ahead s.nxt s.una
  sorted : s.buf.Pairwise fun a b => ahead a.sn s.una < ahead b.sn s.una

/-- The number that `ikcp_shrink_buf` finds. -/
def Sender.first (s : Sender) : UInt32 :=
  match s.buf with
  | [] => s.nxt
  | seg :: _ => seg.sn

/-- `snd_una` is the first number that is not acknowledged. -/
def Sender.Settled (s : Sender) : Prop := s.una = s.first

namespace Sender

variable {s : Sender}

/-- Segments may be taken out of `snd_buf` when they are counted off. -/
theorem Ordered.remove (h : s.Ordered) {buf : List Seg} {nbuf : UInt32} (hsub : buf.Sublist s.buf)
    (hcount : nbuf = UInt32.ofNat buf.length) : Ordered { s with buf := buf, nbuf := nbuf } where
  nbuf := hcount
  nque := h.nque
  wnd := h.wnd
  rmtWnd := h.rmtWnd
  inflight := h.inflight
  numbers := fun seg hseg => h.numbers seg (hsub.subset hseg)
  sorted := h.sorted.sublist hsub

/-- What is not a number of a segment may change. -/
theorem Ordered.rewrite (h : s.Ordered) {buf : List Seg} (hkeys : buf.map Seg.key = s.buf.map Seg.key) :
    Ordered { s with buf := buf } := by
  have hsn : buf.map Seg.sn = s.buf.map Seg.sn := by
    have hmap := congrArg (List.map Prod.fst) hkeys
    rwa [List.map_map, List.map_map] at hmap
  have hlength : buf.length = s.buf.length := by
    have hlen := congrArg List.length hsn
    rwa [List.length_map, List.length_map] at hlen
  have hnumbers : ∀ n ∈ s.buf.map Seg.sn, ahead n s.una < ahead s.nxt s.una := by
    intro n hn
    obtain ⟨seg, hseg, rfl⟩ := List.mem_map.1 hn
    exact h.numbers seg hseg
  have hsorted : (s.buf.map Seg.sn).Pairwise fun a b => ahead a s.una < ahead b s.una :=
    List.pairwise_map.2 h.sorted
  rw [← hsn] at hnumbers hsorted
  rw [List.pairwise_map] at hsorted
  exact {
    nbuf := by rw [hlength]; exact h.nbuf
    nque := h.nque
    wnd := h.wnd
    rmtWnd := h.rmtWnd
    inflight := h.inflight
    numbers := fun seg hseg => hnumbers seg.sn (List.mem_map_of_mem hseg)
    sorted := hsorted }

theorem Settled.rewrite (h : s.Settled) {buf : List Seg} (hkeys : buf.map Seg.key = s.buf.map Seg.key) :
    Settled { s with buf := buf } := by
  unfold Settled first at h ⊢
  cases buf with
  | nil =>
      have hnil : s.buf = [] := List.map_eq_nil_iff.1 hkeys.symm
      simpa [hnil] using h
  | cons seg rest =>
      cases hbuf : s.buf with
      | nil => simp [hbuf] at hkeys
      | cons old others =>
          rw [hbuf, List.map_cons, List.map_cons, List.cons.injEq] at hkeys
          rw [hbuf] at h
          exact h.trans (congrArg Prod.fst hkeys.1).symm

/-- `snd_una` may move up to the first number that is left. -/
theorem Ordered.shrink (h : s.Ordered) : Ordered { s with una := s.first } := by
  have hfirst : ahead s.first s.una ≤ ahead s.nxt s.una ∧
      ∀ seg ∈ s.buf, ahead s.first s.una ≤ ahead seg.sn s.una := by
    unfold first
    cases hbuf : s.buf with
    | nil => exact ⟨le_rfl, fun seg hseg => absurd hseg List.not_mem_nil⟩
    | cons seg rest =>
        refine ⟨Nat.le_of_lt (h.numbers seg (by simp [hbuf])), fun other hother => ?_⟩
        have hsorted := h.sorted
        rw [hbuf, List.pairwise_cons] at hsorted
        rcases List.mem_cons.1 hother with rfl | hrest
        · exact le_rfl
        · exact Nat.le_of_lt (hsorted.1 other hrest)
  have hnxt := ahead_of_base_le hfirst.1
  have hseg : ∀ seg ∈ s.buf, ahead seg.sn s.first = ahead seg.sn s.una - ahead s.first s.una :=
    fun seg hseg => ahead_of_base_le (hfirst.2 seg hseg)
  exact {
    nbuf := h.nbuf
    nque := h.nque
    wnd := h.wnd
    rmtWnd := h.rmtWnd
    inflight := by
      have := h.inflight
      show ahead s.nxt s.first < _
      omega
    numbers := by
      intro seg hmem
      have := h.numbers seg hmem
      have := hseg seg hmem
      have := hfirst.2 seg hmem
      show ahead seg.sn s.first < ahead s.nxt s.first
      omega
    sorted := by
      refine h.sorted.imp_of_mem fun {a b} ha hb hab => ?_
      have := hseg a ha
      have := hseg b hb
      have := hfirst.2 a ha
      show ahead a.sn s.first < ahead b.sn s.first
      omega }

/-- The next number goes to a segment of the queue while the window has room for it. -/
theorem Ordered.number (h : s.Ordered) {newseg : Seg} {rest : List Seg} {cwnd : UInt32} (seg : Seg)
    (hqueue : s.queue = newseg :: rest) (hcwnd : cwnd.toNat < 2 ^ 16)
    (hwindow : itimediff s.nxt (s.una + cwnd) < 0) (hseg : seg.sn = s.nxt) :
    Ordered { s with
      queue := rest, nque := s.nque - 1, buf := s.buf ++ [seg], nbuf := s.nbuf + 1, nxt := s.nxt + 1 } := by
  have hin := h.inflight
  have hroom : ahead s.nxt s.una < cwnd.toNat := by
    apply (serialDiff_window (by omega)).1
    exact ⟨hwindow, serialDiff_nonneg_iff.2 (by omega)⟩
  have hnext : ahead (s.nxt + 1) s.una = ahead s.nxt s.una + 1 := ahead_add_one (by omega)
  exact {
    nbuf := by
      show s.nbuf + 1 = _
      rw [h.nbuf, List.length_append, List.length_singleton, UInt32.ofNat_add]
      rfl
    nque := by
      show s.nque - 1 = _
      rw [h.nque, hqueue, List.length_cons, UInt32.ofNat_add]
      simp
    wnd := h.wnd
    rmtWnd := h.rmtWnd
    inflight := by
      show ahead (s.nxt + 1) s.una < _
      omega
    numbers := by
      intro other hmem
      show ahead other.sn s.una < ahead (s.nxt + 1) s.una
      rcases List.mem_append.1 hmem with hold | hnew
      · have := h.numbers other hold
        omega
      · rw [List.mem_singleton.1 hnew, hseg]
        omega
    sorted := by
      refine List.pairwise_append.2 ⟨h.sorted, List.pairwise_singleton _ _, fun a ha b hb => ?_⟩
      rw [List.mem_singleton.1 hb, hseg]
      exact h.numbers a ha }

theorem Settled.number (h : s.Settled) {queue : List Seg} {nque nbuf : UInt32} (seg : Seg)
    (hseg : seg.sn = s.nxt) : Settled { s with
      queue := queue, nque := nque, buf := s.buf ++ [seg], nbuf := nbuf, nxt := s.nxt + 1 } := by
  unfold Settled first at h ⊢
  cases hbuf : s.buf with
  | nil =>
      rw [hbuf] at h
      exact h.trans hseg.symm
  | cons old rest =>
      rw [hbuf] at h
      exact h

end Sender

/-! ## The receiving side -/

/-- The counters of the receiving side are those of its lists, and `rcv_buf` holds numbers from `rcv_nxt` on
in increasing order. -/
structure Receiver.Ordered (r : Receiver) : Prop where
  nbuf : r.nbuf = UInt32.ofNat r.buf.length
  nque : r.nque = UInt32.ofNat r.queue.length
  wnd_ge : wndRcv.toNat ≤ r.wnd.toNat
  wnd_lt : r.wnd.toNat < 2 ^ 31
  room : r.queue.length < 2 ^ 31
  half : ∀ seg ∈ r.buf, ahead seg.sn r.nxt < 2 ^ 31
  sorted : r.buf.Pairwise fun a b => ahead a.sn r.nxt < ahead b.sn r.nxt

namespace Receiver

variable {r : Receiver}

theorem Ordered.toNat_nque (h : r.Ordered) : r.nque.toNat = r.queue.length := by
  have := h.room
  rw [h.nque, UInt32.toNat_ofNat_of_lt' (by rw [UInt32.size]; omega)]

/-- The segment that is next in turn moves to the queue. -/
theorem Ordered.take (h : r.Ordered) {seg : Seg} {rest : List Seg} (hbuf : r.buf = seg :: rest)
    (hnext : seg.sn = r.nxt) (hroom : r.nque < r.wnd) :
    Ordered { r with
      buf := rest, nbuf := r.nbuf - 1, queue := r.queue ++ [seg], nque := r.nque + 1, nxt := r.nxt + 1 } := by
  have hsorted := h.sorted
  rw [hbuf, List.pairwise_cons, hnext, ahead_self] at hsorted
  have hone : ahead (r.nxt + 1) r.nxt = 1 := by
    rw [ahead_add_one (by rw [ahead_self]; omega), ahead_self]
  have hback : ∀ other ∈ rest, ahead other.sn (r.nxt + 1) = ahead other.sn r.nxt - 1 := by
    intro other hother
    have hpos := hsorted.1 other hother
    have hle : ahead (r.nxt + 1) r.nxt ≤ ahead other.sn r.nxt := by omega
    rw [ahead_of_base_le hle, hone]
  have hlength : r.queue.length < r.wnd.toNat := by
    rw [← h.toNat_nque]
    exact UInt32.lt_iff_toNat_lt.1 hroom
  exact {
    nbuf := by
      show r.nbuf - 1 = _
      rw [h.nbuf, hbuf, List.length_cons, UInt32.ofNat_add]
      simp
    nque := by
      show r.nque + 1 = _
      rw [h.nque, List.length_append, List.length_singleton, UInt32.ofNat_add]
      rfl
    wnd_ge := h.wnd_ge
    wnd_lt := h.wnd_lt
    room := by
      have := h.wnd_lt
      rw [List.length_append, List.length_singleton]
      omega
    half := by
      intro other hother
      have := h.half other (by simp [hbuf, hother])
      show ahead other.sn (r.nxt + 1) < _
      rw [hback other hother]
      omega
    sorted := by
      refine hsorted.2.imp_of_mem fun {a b} ha hb hab => ?_
      have := hsorted.1 a ha
      show ahead a.sn (r.nxt + 1) < ahead b.sn (r.nxt + 1)
      rw [hback a ha, hback b hb]
      omega }

/-- Segments may be taken off the front of the queue when they are counted off. -/
theorem Ordered.drop (h : r.Ordered) {front back : List Seg} (hqueue : front ++ back = r.queue) :
    Ordered { r with queue := back, nque := r.nque - UInt32.ofNat front.length } where
  nbuf := h.nbuf
  nque := by
    show r.nque - _ = _
    rw [h.nque, ← hqueue, List.length_append, UInt32.ofNat_add]
    grind
  wnd_ge := h.wnd_ge
  wnd_lt := h.wnd_lt
  room := by
    have hroom := h.room
    rw [← hqueue, List.length_append] at hroom
    show back.length < _
    omega
  half := h.half
  sorted := h.sorted

end Receiver

/-! ## Insertion into `rcv_buf` -/

section Insertion

variable {newseg : Seg} {base : UInt32}

/-- The search compares distances when all numbers are in half of the circle. -/
theorem insertBack_cons {seg : Seg} {front : List Seg} (hnew : ahead newseg.sn base < 2 ^ 31)
    (hseg : ahead seg.sn base < 2 ^ 31) : insertBack newseg (seg :: front) =
      if ahead seg.sn base = ahead newseg.sn base then none
      else if ahead seg.sn base < ahead newseg.sn base then some (newseg :: seg :: front)
      else (insertBack newseg front).map (seg :: ·) := by
  have hsame : seg.sn = newseg.sn ↔ ahead seg.sn base = ahead newseg.sn base :=
    ⟨fun h => by rw [h], ahead_inj base⟩
  have hbehind : itimediff newseg.sn seg.sn > 0 ↔ ahead seg.sn base < ahead newseg.sn base := by
    rw [itimediff, serialDiff_of_base hnew hseg]
    omega
  rw [insertBack]
  simp only [hsame, hbehind]

/-- A segment that is refused has the number of one that is there. -/
theorem exists_of_insertBack_eq_none {back : List Seg} (h : insertBack newseg back = none) :
    ∃ seg ∈ back, seg.sn = newseg.sn := by
  induction back with
  | nil => cases h
  | cons seg front ih =>
      rw [insertBack] at h
      by_cases hsame : seg.sn = newseg.sn
      · exact ⟨seg, List.mem_cons_self, hsame⟩
      · rw [if_neg hsame] at h
        by_cases hbehind : itimediff newseg.sn seg.sn > 0
        · rw [if_pos hbehind] at h
          cases h
        · rw [if_neg hbehind, Option.map_eq_none_iff] at h
          obtain ⟨other, hmem, hsn⟩ := ih h
          exact ⟨other, List.mem_cons_of_mem _ hmem, hsn⟩

/-- Any other one is added. -/
theorem insertBack_perm {back result : List Seg} (h : insertBack newseg back = some result) :
    result.Perm (newseg :: back) := by
  induction back generalizing result with
  | nil =>
      cases h
      exact List.Perm.refl _
  | cons seg front ih =>
      rw [insertBack] at h
      by_cases hsame : seg.sn = newseg.sn
      · rw [if_pos hsame] at h
        cases h
      · rw [if_neg hsame] at h
        by_cases hbehind : itimediff newseg.sn seg.sn > 0
        · rw [if_pos hbehind] at h
          cases h
          exact List.Perm.refl _
        · rw [if_neg hbehind, Option.map_eq_some_iff] at h
          obtain ⟨rest, hrest, rfl⟩ := h
          exact ((ih hrest).cons seg).trans (List.Perm.swap newseg seg front)

/-- It is put into its place. -/
theorem insertBack_sorted {back result : List Seg} (hnew : ahead newseg.sn base < 2 ^ 31)
    (hhalf : ∀ seg ∈ back, ahead seg.sn base < 2 ^ 31)
    (hsorted : back.Pairwise fun a b => ahead b.sn base < ahead a.sn base)
    (h : insertBack newseg back = some result) :
    result.Pairwise fun a b => ahead b.sn base < ahead a.sn base := by
  induction back generalizing result with
  | nil =>
      cases h
      exact List.pairwise_singleton _ _
  | cons seg front ih =>
      rw [List.forall_mem_cons] at hhalf
      rw [insertBack_cons hnew hhalf.1] at h
      have hbelow := (List.pairwise_cons.1 hsorted).1
      by_cases hsame : ahead seg.sn base = ahead newseg.sn base
      · rw [if_pos hsame] at h
        cases h
      · rw [if_neg hsame] at h
        by_cases hbehind : ahead seg.sn base < ahead newseg.sn base
        · rw [if_pos hbehind] at h
          cases h
          refine List.pairwise_cons.2 ⟨List.forall_mem_cons.2 ⟨hbehind, fun other hother => ?_⟩, hsorted⟩
          exact (hbelow other hother).trans hbehind
        · rw [if_neg hbehind, Option.map_eq_some_iff] at h
          obtain ⟨rest, hrest, rfl⟩ := h
          refine List.pairwise_cons.2 ⟨fun other hother => ?_, ih hhalf.2 (List.pairwise_cons.1 hsorted).2 hrest⟩
          rcases List.mem_cons.1 ((insertBack_perm hrest).subset hother) with rfl | hfront
          · omega
          · exact hbelow other hfront

/-- A segment less than half of the circle ahead keeps the receiving side in order. -/
theorem Receiver.Ordered.insert {kcp : Ikcpcb} (h : kcp.receiver.Ordered)
    (hnew : ahead newseg.sn kcp.rcvNxt < 2 ^ 31) : (insertSeg kcp newseg).receiver.Ordered := by
  unfold insertSeg
  cases hins : insertBack newseg kcp.rcvBuf.reverse with
  | none => exact h
  | some back =>
      have hperm := insertBack_perm hins
      have hhalf : ∀ seg ∈ kcp.rcvBuf.reverse, ahead seg.sn kcp.rcvNxt < 2 ^ 31 :=
        fun seg hseg => h.half seg (List.mem_reverse.1 hseg)
      exact {
        nbuf := by
          show kcp.nrcvBuf + 1 = UInt32.ofNat back.reverse.length
          have hcount : kcp.nrcvBuf = UInt32.ofNat kcp.rcvBuf.length := h.nbuf
          rw [hcount, List.length_reverse, hperm.length_eq, List.length_cons, List.length_reverse,
            UInt32.ofNat_add]
          rfl
        nque := h.nque
        wnd_ge := h.wnd_ge
        wnd_lt := h.wnd_lt
        room := h.room
        half := by
          intro seg hseg
          rcases List.mem_cons.1 (hperm.subset (List.mem_reverse.1 hseg)) with rfl | hold
          · exact hnew
          · exact hhalf seg hold
        sorted := by
          refine List.pairwise_reverse.2 (insertBack_sorted hnew hhalf ?_ hins)
          exact List.pairwise_reverse.2 h.sorted }

end Insertion

/-! ## Removal from `snd_buf` -/

section Removal

variable (sn una : UInt32)

/-- `ikcp_parse_una` removes a front part of the list. -/
theorem removeUna_eq (buf : List Seg) (nsndBuf : UInt32) :
    ∃ front, buf = front ++ (removeUna una buf nsndBuf).1 ∧ ∀ seg ∈ front, itimediff una seg.sn > 0 := by
  induction buf generalizing nsndBuf with
  | nil => exact ⟨[], rfl, fun seg h => absurd h List.not_mem_nil⟩
  | cons seg rest ih =>
      rw [removeUna]
      split
      · rename_i hbefore
        obtain ⟨front, hfront, hall⟩ := ih (nsndBuf - 1)
        exact ⟨seg :: front, congrArg (seg :: ·) hfront, List.forall_mem_cons.2 ⟨hbefore, hall⟩⟩
      · exact ⟨[], rfl, fun seg h => absurd h List.not_mem_nil⟩

theorem removeUna_count (buf : List Seg) : ∀ nsndBuf, nsndBuf = UInt32.ofNat buf.length →
    (removeUna una buf nsndBuf).2 = UInt32.ofNat (removeUna una buf nsndBuf).1.length := by
  induction buf with
  | nil => exact fun _ h => h
  | cons seg rest ih =>
      intro n hn
      rw [removeUna]
      split
      · apply ih
        rw [hn, List.length_cons, UInt32.ofNat_add]
        simp
      · exact hn

/-- `ikcp_parse_ack` removes segments with the acknowledged number only. -/
theorem removeAck_spec (buf : List Seg) (nsndBuf : UInt32) :
    (removeAck sn buf nsndBuf).1.Sublist buf ∧
      ∀ seg ∈ buf, seg ∈ (removeAck sn buf nsndBuf).1 ∨ seg.sn = sn := by
  induction buf with
  | nil => exact ⟨List.Sublist.refl _, fun seg h => absurd h List.not_mem_nil⟩
  | cons seg rest ih =>
      rw [removeAck]
      split
      · rename_i hsame
        refine ⟨List.sublist_cons_self seg rest, List.forall_mem_cons.2 ⟨Or.inr hsame.symm, ?_⟩⟩
        exact fun other hother => Or.inl hother
      · split
        · exact ⟨List.Sublist.refl _, fun other hother => Or.inl hother⟩
        · refine ⟨ih.1.cons_cons seg, List.forall_mem_cons.2 ⟨Or.inl List.mem_cons_self, ?_⟩⟩
          exact fun other hother => (ih.2 other hother).imp_left (List.mem_cons_of_mem seg)

theorem removeAck_count (buf : List Seg) (nsndBuf : UInt32) :
    (removeAck sn buf nsndBuf).2 + UInt32.ofNat buf.length =
      nsndBuf + UInt32.ofNat (removeAck sn buf nsndBuf).1.length := by
  induction buf with
  | nil => rfl
  | cons seg rest ih =>
      have hone : UInt32.ofNat (rest.length + 1) = UInt32.ofNat rest.length + 1 := UInt32.ofNat_add _ _
      rw [removeAck, List.length_cons]
      split
      · rw [hone]
        grind
      · split
        · rw [List.length_cons]
        · rw [List.length_cons, hone, UInt32.ofNat_add]
          dsimp only
          rw [← UInt32.add_assoc, ih, UInt32.add_assoc]
          rfl

end Removal

/-! ## An endpoint in order -/

/-- Both sides of an endpoint are in order, and `snd_una` is up to date. -/
structure Ikcpcb.Ordered (kcp : Ikcpcb) : Prop where
  sender : kcp.sender.Ordered
  settled : kcp.sender.Settled
  receiver : kcp.receiver.Ordered

namespace Ikcpcb.Ordered

variable {kcp : Ikcpcb}

/-- Only what `View` shows matters. -/
theorem of_view {k : Ikcpcb} (h : kcp.Ordered) (hview : k.view = kcp.view) : k.Ordered := by
  have hsender : k.sender = kcp.sender := congrArg View.sender hview
  have hreceiver : k.receiver = kcp.receiver := congrArg View.receiver hview
  exact ⟨hsender ▸ h.sender, hsender ▸ h.settled, hreceiver ▸ h.receiver⟩

theorem created (conv : UInt32) : (create conv).Ordered where
  sender := {
    nbuf := rfl
    nque := rfl
    wnd := show 0 < wndSnd.toNat by decide
    rmtWnd := show wndRcv.toNat < 2 ^ 16 by decide
    inflight := show ahead 0 0 < 2 ^ 16 by decide
    numbers := fun seg h => absurd h List.not_mem_nil
    sorted := List.Pairwise.nil }
  settled := rfl
  receiver := {
    nbuf := rfl
    nque := rfl
    wnd_ge := le_refl wndRcv.toNat
    wnd_lt := show wndRcv.toNat < 2 ^ 31 by decide
    room := Nat.two_pow_pos 31
    half := fun seg h => absurd h List.not_mem_nil
    sorted := List.Pairwise.nil }

/-- `ikcp_shrink_buf` settles `snd_una`. -/
theorem shrink (hsender : kcp.sender.Ordered) (hreceiver : kcp.receiver.Ordered) :
    (shrinkBuf kcp).Ordered where
  sender := hsender.shrink
  settled := by
    unfold Sender.Settled Sender.first Ikcpcb.sender shrinkBuf
    cases kcp.sndBuf <;> rfl
  receiver := hreceiver

theorem inputUna (h : kcp.Ordered) (hd : Header) : (inputUna kcp hd).Ordered := by
  obtain ⟨front, hfront, -⟩ := removeUna_eq hd.una kcp.sndBuf kcp.nsndBuf
  have hsub : (removeUna hd.una kcp.sndBuf kcp.nsndBuf).1.Sublist kcp.sndBuf := by
    conv => rhs; rw [hfront]
    exact List.sublist_append_right _ _
  have hcount := removeUna_count hd.una kcp.sndBuf kcp.nsndBuf h.sender.nbuf
  have hwnd : hd.wnd.toUInt32.toNat < 2 ^ 16 := by
    rw [UInt16.toNat_toUInt32]
    exact hd.wnd.toNat_lt
  have hremoved := h.sender.remove hsub hcount
  refine shrink ?_ h.receiver
  exact {
    nbuf := hremoved.nbuf
    nque := hremoved.nque
    wnd := h.sender.wnd
    rmtWnd := hwnd
    inflight := hremoved.inflight
    numbers := hremoved.numbers
    sorted := hremoved.sorted }

theorem parseAck (h : kcp.Ordered) (sn : UInt32) : (shrinkBuf (parseAck kcp sn)).Ordered := by
  unfold Kcp.parseAck
  split
  · exact shrink h.sender h.receiver
  · refine shrink (h.sender.remove (removeAck_spec sn kcp.sndBuf kcp.nsndBuf).1 ?_) h.receiver
    have hcount := removeAck_count sn kcp.sndBuf kcp.nsndBuf
    have hnbuf : kcp.nsndBuf = UInt32.ofNat kcp.sndBuf.length := h.sender.nbuf
    grind

theorem inputAck (h : kcp.Ordered) (hd : Header) : (inputAck kcp hd).Ordered := by
  obtain ⟨k, hview, heq⟩ := inputAck_eq kcp hd
  rw [heq]
  exact (h.of_view hview).parseAck hd.sn

theorem moveAvailable (h : kcp.Ordered) : (moveAvailable kcp.rcvBuf kcp).Ordered := by
  apply moveAvailable_induction (P := Ikcpcb.Ordered) _ h
  intro k seg rest hk hbuf hnext hroom
  exact ⟨hk.sender, hk.settled, hk.receiver.take hbuf hnext hroom⟩

/-- A segment inside the window is put into `rcv_buf`. -/
theorem inserted (h : kcp.Ordered) {newseg : Seg} (hnext : ¬ itimediff newseg.sn kcp.rcvNxt < 0) :
    (insertSeg kcp newseg).Ordered := by
  have hnew : ahead newseg.sn kcp.rcvNxt < 2 ^ 31 := serialDiff_nonneg_iff.1 (not_lt.1 hnext)
  have hview := view_insertSeg kcp newseg
  have hsender : (insertSeg kcp newseg).sender = kcp.sender := congrArg View.sender hview
  exact ⟨hsender ▸ h.sender, hsender ▸ h.settled, h.receiver.insert hnew⟩

theorem parseData (h : kcp.Ordered) (newseg : Seg) : (parseData kcp newseg).Ordered := by
  unfold Kcp.parseData
  split
  · exact h
  · rename_i hwindow
    exact (h.inserted fun hpast => hwindow (Or.inr hpast)).moveAvailable

theorem inputPush (h : kcp.Ordered) (hd : Header) (data : Bytes) : (inputPush kcp hd data).Ordered := by
  have hpushed : (ackPush kcp hd.sn hd.ts).Ordered := ⟨h.sender, h.settled, h.receiver⟩
  unfold Kcp.inputPush
  split
  · dsimp only
    split
    · exact hpushed.parseData _
    · exact hpushed
  · exact h

theorem inputSeg (h : kcp.Ordered) (hd : Header) (data : Bytes) : (inputSeg kcp hd data).Ordered := by
  have huna := h.inputUna hd
  unfold Kcp.inputSeg
  dsimp only
  split
  · exact huna.inputAck hd
  · split
    · exact huna.inputPush hd data
    · split
      · exact ⟨huna.sender, huna.settled, huna.receiver⟩
      · exact huna

theorem parseFastack (h : kcp.Ordered) (sn : UInt32) : (parseFastack kcp sn).Ordered := by
  unfold Kcp.parseFastack
  split
  · exact h
  · have hkeys := keys_countFastack sn kcp.sndBuf
    exact ⟨h.sender.rewrite hkeys, h.settled.rewrite hkeys, h.receiver⟩

theorem inputTail (h : kcp.Ordered) (prevUna : UInt32) (maxack : Maxack) :
    (inputTail prevUna kcp maxack).Ordered := by
  have hgrow : ∀ k : Ikcpcb, k.Ordered →
      (if itimediff k.sndUna prevUna > 0 then growCwnd k else k).Ordered := by
    intro k hk
    split
    · exact hk.of_view (view_growCwnd _)
    · exact hk
  cases maxack with
  | none => exact hgrow kcp h
  | some maxack => exact hgrow _ (h.parseFastack maxack)

theorem input (h : kcp.Ordered) (data : Bytes) : (input kcp data).1.Ordered :=
  input_induction (P := Ikcpcb.Ordered) (fun _ hd body hk => hk.inputSeg hd body)
    (fun prevUna _ maxack hk => hk.inputTail prevUna maxack) h data

theorem moveToSndBuf {cwnd wnd : UInt32} (hcwnd : cwnd.toNat < 2 ^ 16) (h : kcp.Ordered) :
    (moveToSndBuf cwnd wnd kcp.sndQueue kcp).Ordered := by
  apply moveToSndBuf_induction (P := Ikcpcb.Ordered) _ h
  intro k newseg rest hk hqueue hwindow
  refine ⟨?_, ?_, hk.receiver⟩
  · exact hk.sender.number (numberSeg k wnd newseg) hqueue hcwnd hwindow rfl
  · exact hk.settled.number (numberSeg k wnd newseg) rfl

theorem flushWindow_lt (h : kcp.Ordered) : (flushWindow kcp).toNat < 2 ^ 16 := by
  have hwnd : kcp.rmtWnd.toNat < 2 ^ 16 := h.sender.rmtWnd
  unfold flushWindow
  dsimp only
  split <;> simp only [imin_toNat] <;> omega

theorem flushQueue (h : kcp.Ordered) : (flushQueue kcp).Ordered := by
  have hprobed : (probeWindow kcp).Ordered := h.of_view (view_probeWindow _)
  have hcleared : (clearProbe (probeWindow kcp)).Ordered :=
    ⟨hprobed.sender, hprobed.settled, hprobed.receiver⟩
  exact hcleared.moveToSndBuf hcleared.flushWindow_lt

theorem flush (h : kcp.Ordered) : (flush kcp).1.Ordered := by
  cases hupdated : kcp.updated with
  | false =>
      rw [Kcp.flush, hupdated]
      exact h
  | true =>
      have hview := view_flush_of_updated hupdated
      have hsender : (Kcp.flush kcp).1.sender = _ := congrArg View.sender hview
      have hreceiver : (Kcp.flush kcp).1.receiver = kcp.receiver := congrArg View.receiver hview
      have hqueue := h.flushQueue
      have hkeys := keys_flushSegments (Kcp.flushQueue kcp) (wndUnused kcp) (Kcp.flushQueue kcp).sndBuf
        ⟨flushHeads kcp, false, 0, kcp.xmit, kcp.state⟩
      refine ⟨?_, ?_, hreceiver ▸ h.receiver⟩
      · rw [hsender]
        exact hqueue.sender.rewrite hkeys
      · rw [hsender]
        exact hqueue.settled.rewrite hkeys

theorem update (h : kcp.Ordered) (current : UInt32) : (update kcp current).1.Ordered := by
  have hclock : (resync (setClock kcp current)).Ordered :=
    h.of_view ((view_resync _).trans (view_setClock _ current))
  unfold Kcp.update
  dsimp only
  split
  · exact (hclock.of_view (view_nextFlush _)).flush
  · exact hclock

theorem takeMessage_append (queue : List Seg) : (takeMessage queue).1 ++ (takeMessage queue).2 = queue := by
  induction queue with
  | nil => rfl
  | cons seg rest ih =>
      unfold takeMessage
      split
      · rfl
      · exact congrArg (seg :: ·) ih

theorem dropMessage (h : kcp.Ordered) : (dropMessage kcp).Ordered :=
  ⟨h.sender, h.settled, h.receiver.drop (takeMessage_append kcp.rcvQueue)⟩

theorem recv (h : kcp.Ordered) (len : Int) : (recv kcp len).1.Ordered := by
  have hmove : ∀ (k : Ikcpcb) (recover : Bool), k.Ordered →
      (fastRecover recover (Kcp.moveAvailable k.rcvBuf k)).Ordered := by
    intro k recover hk
    exact hk.moveAvailable.of_view (view_fastRecover _ recover)
  rcases recv_cases kcp len with ⟨rc, -, heq⟩ | ⟨-, -, -, heq⟩
  · rw [heq]
    exact h
  · rw [heq]
    unfold recvMessage
    dsimp only
    split
    · exact hmove kcp _ h
    · exact hmove _ _ h.dropMessage

theorem length_fragment (stream : Int32) (mss n : Nat) (buffer : Bytes) :
    (fragment stream mss n buffer).length = n := by
  induction n generalizing buffer with
  | zero => rfl
  | succ n ih => rw [fragment, List.length_cons, ih]

theorem sendRest (h : kcp.Ordered) (buffer : Bytes) : (sendRest kcp buffer).1.Ordered := by
  unfold Kcp.sendRest
  dsimp only
  split
  · exact h
  · refine ⟨?_, h.settled, h.receiver⟩
    have hcount : kcp.nsndQue = UInt32.ofNat kcp.sndQueue.length := h.sender.nque
    exact {
      nbuf := h.sender.nbuf
      nque := by
        show kcp.nsndQue + _ = UInt32.ofNat (kcp.sndQueue ++ _).length
        rw [List.length_append, length_fragment, UInt32.ofNat_add, hcount]
      wnd := h.sender.wnd
      rmtWnd := h.sender.rmtWnd
      inflight := h.sender.inflight
      numbers := h.sender.numbers
      sorted := h.sender.sorted }

theorem length_appendStream (mss : Nat) (queue : List Seg) (buffer : Bytes) :
    (appendStream mss queue buffer).1.length = queue.length := by
  unfold appendStream
  cases hlast : queue.getLast? with
  | none => rfl
  | some old =>
      have hne : queue ≠ [] := by
        rintro rfl
        cases hlast
      have hpos := List.length_pos_iff.2 hne
      dsimp only
      split
      · rw [List.length_append, List.length_dropLast, List.length_singleton]
        omega
      · rfl

theorem send (h : kcp.Ordered) (buffer : Bytes) (len : Int) : (send kcp buffer len).1.Ordered := by
  unfold Kcp.send
  split
  · exact h
  · dsimp only
    split
    · have hqueued : ({ kcp with sndQueue :=
          (appendStream kcp.mss kcp.sndQueue (buffer.take len.toNat)).1 } : Ikcpcb).Ordered := by
        refine ⟨?_, h.settled, h.receiver⟩
        exact {
          nbuf := h.sender.nbuf
          nque := h.sender.nque.trans (congrArg UInt32.ofNat (length_appendStream _ _ _).symm)
          wnd := h.sender.wnd
          rmtWnd := h.sender.rmtWnd
          inflight := h.sender.inflight
          numbers := h.sender.numbers
          sorted := h.sender.sorted }
      split
      · exact hqueued
      · exact hqueued.sendRest _
    · exact h.sendRest _

theorem wndsize (h : kcp.Ordered) (sndwnd rcvwnd : Int32) : (wndsize kcp sndwnd rcvwnd).Ordered := by
  have hpositive : 0 < (Kcp.wndsize kcp sndwnd rcvwnd).sndWnd.toNat := by
    unfold Kcp.wndsize
    dsimp only
    split
    · rename_i hpos
      exact (toNat_toUInt32_of_pos (Int32.lt_iff_toInt_lt.1 hpos)).1
    · exact h.sender.wnd
  have hbounds : wndRcv.toNat ≤ (Kcp.wndsize kcp sndwnd rcvwnd).rcvWnd.toNat ∧
      (Kcp.wndsize kcp sndwnd rcvwnd).rcvWnd.toNat < 2 ^ 31 := by
    unfold Kcp.wndsize
    dsimp only
    split
    · rename_i hpos
      have hlt := (toNat_toUInt32_of_pos (Int32.lt_iff_toInt_lt.1 hpos)).2
      have hmin : wndRcv.toNat < 2 ^ 31 := by decide
      rw [imax_toNat]
      omega
    · exact ⟨h.receiver.wnd_ge, h.receiver.wnd_lt⟩
  have hsender : (Kcp.wndsize kcp sndwnd rcvwnd).sender.Ordered :=
    ⟨h.sender.nbuf, h.sender.nque, hpositive, h.sender.rmtWnd, h.sender.inflight, h.sender.numbers, h.sender.sorted⟩
  refine ⟨hsender, h.settled, ?_⟩
  exact {
    nbuf := h.receiver.nbuf
    nque := h.receiver.nque
    wnd_ge := hbounds.1
    wnd_lt := hbounds.2
    room := h.receiver.room
    half := h.receiver.half
    sorted := h.receiver.sorted }

theorem setmtu (h : kcp.Ordered) (mtu : Int32) : (setmtu kcp mtu).1.Ordered := by
  unfold Kcp.setmtu
  split
  · exact ⟨h.sender, h.settled, h.receiver⟩
  · exact h

theorem event (h : kcp.Ordered) (e : Event) : (kcp.event e).Ordered := by
  cases e with
  | input data => exact h.input data
  | call c =>
      cases c with
      | send buffer => exact h.send buffer _
      | recv len => exact h.recv len
      | update current => exact h.update current
      | flush => exact h.flush
      | setmtu mtu => exact h.setmtu mtu
      | interval interval => exact h.of_view (view_setInterval _ interval)
      | nodelay nodelay interval resend nc => exact h.of_view (view_setNodelay _ nodelay interval resend nc)
      | wndsize sndwnd rcvwnd => exact h.wndsize sndwnd rcvwnd

end Ikcpcb.Ordered

/-- An endpoint stays in order through any calls and any datagrams, whatever these contain. -/
theorem ordered_of_events (conv : UInt32) (stream : Int32) (events : List Event) :
    (events.foldl Ikcpcb.event { create conv with stream := stream }).Ordered := by
  have hcreated := Ikcpcb.Ordered.created conv
  apply events_induction (P := Ikcpcb.Ordered)
  · exact fun kcp e h => h.event e
  · exact ⟨hcreated.sender, hcreated.settled, hcreated.receiver⟩

end CppMisc.Kcp
