import Mathlib.Tactic
import CppMisc.EpollV2.Model

/-!
# Dispatch safety of the event loop

The ownership of an item, the registered mask and the callback pointer change together, in four places.
`Wired` is what the changes keep: registrations and live items point to each other, and the callback is the
one for the registered direction. The events that are left in a batch point to items that are still
registered as they were when the batch was taken (`Queued`), because handling an event changes only the
registration of its own item or adds a new one.

From the two follows that both tests of the loop body find a live item with the right callback: the second
test succeeds only for an item registered for output, and then the first one has not called anything.
-/

set_option autoImplicit false

namespace CppMisc.EpollV2

open CppMisc.Library

/-- The callback is the one for the registered direction. -/
def Fits (mask : Mask) (cb : Callback) : Prop :=
  (mask = .input ∧ (cb = .recvCallback ∨ cb = .acceptCallback)) ∨
    (mask = .output ∧ cb = .sendCallback)

/-- Registrations and live items point to each other. -/
structure Wired (s : State) : Prop where
  item : ∀ fd reg, s.epoll fd = some reg →
    ∃ id si, s.heap reg.data = .live id si ∧ si.sockFd = fd ∧ Fits reg.mask si.callback
  reg : ∀ p id si, s.heap p = .live id si → ∃ reg, s.epoll si.sockFd = some reg ∧ reg.data = p
  acceptor : ∀ p id si, s.heap p = .live id si →
    (si.callback = .acceptCallback ↔ p = s.listenItem)
  listening : ∃ id si, s.heap s.listenItem = .live id si
  opened : ∀ fd, s.epoll fd ≠ none → s.opened fd = true

/-- The events of a batch that are still to be handled: each points to the item it was stored for, which is
registered with a mask that allows the reported bits. -/
structure Queued (s : State) (batch : List Event) : Prop where
  nodup : (batch.map Event.ptr).Nodup
  registered : ∀ e ∈ batch, ∃ fd reg, s.epoll fd = some reg ∧ reg.data = e.ptr ∧
    e.bits.Among reg.mask
  alive : ∀ e ∈ batch, ∃ si, s.heap e.ptr = .live e.item si

/-! ## What a callback can do -/

/-- The outcomes of a callback that is called through the item `id` at `p` of the descriptor `fd`. -/
inductive Effect (s : State) (p id fd : Nat) : State → Prop
  | keep : Effect s p id fd s
  | enter {q clientFd : Nat} {si : Sockitem} (hfd : s.opened clientFd = false)
      (hq : (s.heap q).isLive = false) (hsi : si.sockFd = clientFd)
      (hcb : si.callback = .recvCallback) :
      Effect s p id fd { s with
        heap := Function.update s.heap q (.live s.next si)
        epoll := Function.update s.epoll clientFd (some ⟨.input, q⟩)
        opened := Function.update s.opened clientFd true
        next := s.next + 1 }
  | leave (hp : p ≠ s.listenItem) :
      Effect s p id fd { s with
        heap := Function.update s.heap p .freed
        epoll := Function.update s.epoll fd none
        opened := Function.update s.opened fd false }
  | turn {si : Sockitem} {mask : Mask} (hp : p ≠ s.listenItem) (hsi : si.sockFd = fd)
      (hfits : Fits mask si.callback) (hcb : si.callback ≠ .acceptCallback) :
      Effect s p id fd { s with
        heap := Function.update s.heap p (.live id si)
        epoll := Function.update s.epoll fd (some ⟨mask, p⟩) }

section Effects

variable {s t : State} {p q id fd : Nat} {si si' : Sockitem} {reg : Registration Nat} {r : Results}

/-- A descriptor that is not open is not registered. -/
theorem Wired.epoll_none (hs : Wired s) (h : s.opened fd = false) : s.epoll fd = none := by
  by_contra hne
  have hopen := hs.opened fd hne
  rw [h] at hopen
  cases hopen

/-- Only one descriptor is registered with an item. -/
theorem Wired.fd_unique (hs : Wired s) (hp : s.heap p = .live id si) {fd' : Nat}
    (hreg : s.epoll fd' = some reg) (hdata : reg.data = p) : fd' = si.sockFd := by
  obtain ⟨id', si', hsi', hfd, _⟩ := hs.item fd' reg hreg
  rw [hdata, hp] at hsi'
  cases hsi'
  exact hfd.symm

/-- Other descriptors are registered with other items. -/
theorem Wired.data_ne (hs : Wired s) (hp : s.heap p = .live id si) (hfd : si.sockFd = fd) {fd' : Nat}
    (hne : fd' ≠ fd) (hreg : s.epoll fd' = some reg) : reg.data ≠ p :=
  fun hdata => hne ((hs.fd_unique hp hreg hdata).trans hfd)

/-- Different items have different descriptors. -/
theorem Wired.sockFd_ne (hs : Wired s) (hp : s.heap p = .live id si) {id' : Nat}
    (hq : s.heap q = .live id' si') (hne : q ≠ p) : si'.sockFd ≠ si.sockFd := by
  intro heq
  obtain ⟨reg, hreg, hdata⟩ := hs.reg p id si hp
  obtain ⟨reg', hreg', hdata'⟩ := hs.reg q id' si' hq
  rw [heq, hreg] at hreg'
  cases hreg'
  exact hne (hdata'.symm.trans hdata)

theorem mod_of_registered {i : Interest Nat} (h : i fd ≠ none) (m : Mask) (q : Nat) :
    i.ctl .mod fd ⟨m, q⟩ true = Function.update i fd (some ⟨m, q⟩) := by
  obtain ⟨reg, hreg⟩ := Option.ne_none_iff_exists'.1 h
  simp [Interest.ctl, hreg]

theorem hangUp_effect (hp : p ≠ s.listenItem) : Effect s p id fd (hangUp s fd p) := by
  have heq : hangUp s fd p =
      { s with
        heap := Function.update s.heap p .freed
        epoll := Function.update s.epoll fd none
        opened := Function.update s.opened fd false } := by
    simp [hangUp, State.ctl, Interest.close, Interest.ctl]
  rw [heq]
  exact .leave hp

theorem acceptCallback_effect (hs : Wired s) (h : acceptCallback s r = some t) :
    Effect s p id fd t := by
  unfold acceptCallback at h
  split at h
  next =>
    cases h
    exact .keep
  next clientFd hr =>
    split at h
    next hguard =>
      cases h
      simp only [State.ctl, State.setItem, Interest.ctl, hs.epoll_none hguard.1, ctlSlot]
      exact .enter hguard.1 hguard.2 rfl rfl
    next => cases h

theorem recvCallback_effect (hreg : s.epoll fd ≠ none) (hp : p ≠ s.listenItem)
    (h : recvCallback s fd p id si r = some t) : Effect s p id fd t := by
  unfold recvCallback at h
  split at h
  next =>
    cases h
    exact .keep
  next =>
    cases h
    exact hangUp_effect hp
  next bs hr =>
    split at h
    next =>
      cases h
      exact hangUp_effect hp
    next =>
      split at h
      next =>
        cases h
        simp only [State.ctl, State.setItem, mod_of_registered hreg]
        exact .turn hp rfl (.inr ⟨rfl, rfl⟩) (by simp)
      next => cases h

theorem sendCallback_effect (hreg : s.epoll fd ≠ none) (hp : p ≠ s.listenItem)
    (h : sendCallback s fd p id si = some t) : Effect s p id fd t := by
  unfold sendCallback at h
  cases h
  simp only [State.ctl, State.setItem, mod_of_registered hreg]
  exact .turn hp rfl (.inl ⟨rfl, .inl rfl⟩) (by simp)

/-- A call for the registered direction finds its item alive and the right callback in it. -/
theorem call_effect {e : Event} (hs : Wired s) (hreg : s.epoll fd = some reg)
    (hdata : reg.data = e.ptr) (halive : s.heap e.ptr = .live e.item si) (input : Bool)
    (hmask : reg.mask = if input then .input else .output) (h : call s e input r = some t) :
    Effect s e.ptr e.item fd t := by
  have hsome : s.epoll fd ≠ none := by simp [hreg]
  have haccept := hs.acceptor e.ptr e.item si halive
  obtain ⟨id', si', hsi', hfd, hfits⟩ := hs.item fd reg hreg
  rw [hdata, halive] at hsi'
  cases hsi'
  have hexpected : expected input si.callback = true := by
    rcases hfits with ⟨hin, hcb | hcb⟩ | ⟨hout, hcb⟩
    · cases input with
      | true => simp [expected, hcb]
      | false => simp [hmask, Mask.input, Mask.output] at hin
    · cases input with
      | true => simp [expected, hcb]
      | false => simp [hmask, Mask.input, Mask.output] at hin
    · cases input with
      | true => simp [hmask, Mask.input, Mask.output] at hout
      | false => simp [expected, hcb]
  simp only [call, halive, hexpected, ne_eq, not_true_eq_false, if_false, if_true, hfd] at h
  cases hcb : si.callback with
  | acceptCallback =>
      rw [hcb] at h
      exact acceptCallback_effect hs h
  | recvCallback =>
      rw [hcb] at h
      apply recvCallback_effect hsome _ h
      exact fun heq => by simp [haccept.2 heq] at hcb
  | sendCallback =>
      rw [hcb] at h
      apply sendCallback_effect hsome _ h
      exact fun heq => by simp [haccept.2 heq] at hcb

/-! ## The wiring is kept -/

theorem Wired.enter (hs : Wired s) {clientFd n : Nat} (hfd : s.opened clientFd = false)
    (hq : (s.heap q).isLive = false) (hsi : si.sockFd = clientFd)
    (hcb : si.callback = .recvCallback) :
    Wired { s with
      heap := Function.update s.heap q (.live id si)
      epoll := Function.update s.epoll clientFd (some ⟨.input, q⟩)
      opened := Function.update s.opened clientFd true
      next := n } := by
  have hnone := hs.epoll_none hfd
  have hlive : ∀ p id' si', s.heap p = .live id' si' → p ≠ q := by
    rintro p id' si' hp rfl
    simp [hp, Block.isLive] at hq
  constructor
  · intro fd reg hreg
    by_cases hclient : fd = clientFd
    · subst hclient
      simp only [Function.update_self, Option.some.injEq] at hreg
      subst hreg
      exact ⟨id, si, by simp, hsi, .inl ⟨rfl, .inl hcb⟩⟩
    · simp only [Function.update_of_ne hclient] at hreg
      obtain ⟨id', si', hsi', hfd', hfits⟩ := hs.item fd reg hreg
      exact ⟨id', si', by simp [hlive _ _ _ hsi', hsi'], hfd', hfits⟩
  · intro p id' si' hp
    by_cases hpq : p = q
    · subst hpq
      simp only [Function.update_self, Block.live.injEq] at hp
      obtain ⟨rfl, rfl⟩ := hp
      exact ⟨_, by rw [hsi]; exact Function.update_self _ _ _, rfl⟩
    · simp only [Function.update_of_ne hpq] at hp
      obtain ⟨reg, hreg, hdata⟩ := hs.reg p id' si' hp
      have hne : si'.sockFd ≠ clientFd := by
        intro heq
        rw [heq, hnone] at hreg
        cases hreg
      exact ⟨reg, by simp [hne, hreg], hdata⟩
  · intro p id' si' hp
    obtain ⟨il, sl, hsl⟩ := hs.listening
    by_cases hpq : p = q
    · subst hpq
      simp only [Function.update_self, Block.live.injEq] at hp
      obtain ⟨rfl, rfl⟩ := hp
      simp [hcb, (hlive _ _ _ hsl).symm]
    · simp only [Function.update_of_ne hpq] at hp
      exact hs.acceptor p id' si' hp
  · obtain ⟨il, sl, hsl⟩ := hs.listening
    exact ⟨il, sl, by simp [hlive _ _ _ hsl, hsl]⟩
  · intro fd hreg
    by_cases hclient : fd = clientFd
    · simp [hclient]
    · simp only [Function.update_of_ne hclient] at hreg ⊢
      exact hs.opened fd hreg

theorem Wired.leave (hs : Wired s) (hp : s.heap p = .live id si) (hfd : si.sockFd = fd)
    (hlisten : p ≠ s.listenItem) :
    Wired { s with
      heap := Function.update s.heap p .freed
      epoll := Function.update s.epoll fd none
      opened := Function.update s.opened fd false } := by
  -- what is live afterwards is another item
  have hitem : ∀ {q id' si'}, Function.update s.heap p .freed q = .live id' si' →
      q ≠ p ∧ s.heap q = .live id' si' := by
    intro q id' si' hq
    have hne : q ≠ p := by
      rintro rfl
      simp at hq
    exact ⟨hne, by simpa [hne] using hq⟩
  constructor
  · intro fd' reg hreg
    have hne : fd' ≠ fd := by
      rintro rfl
      simp at hreg
    simp only [Function.update_of_ne hne] at hreg
    obtain ⟨id', si', hsi', hrest⟩ := hs.item fd' reg hreg
    exact ⟨id', si', by simp [hs.data_ne hp hfd hne hreg, hsi'], hrest⟩
  · intro q id' si' hq
    obtain ⟨hqp, hlive⟩ := hitem hq
    obtain ⟨reg, hreg, hdata⟩ := hs.reg q id' si' hlive
    have hne : si'.sockFd ≠ fd := hfd ▸ hs.sockFd_ne hp hlive hqp
    exact ⟨reg, by simp [hne, hreg], hdata⟩
  · intro q id' si' hq
    exact hs.acceptor q id' si' (hitem hq).2
  · obtain ⟨il, sl, hsl⟩ := hs.listening
    exact ⟨il, sl, by simp [hlisten.symm, hsl]⟩
  · intro fd' hreg
    have hne : fd' ≠ fd := by
      rintro rfl
      simp at hreg
    simp only [Function.update_of_ne hne] at hreg ⊢
    exact hs.opened fd' hreg

theorem Wired.turn (hs : Wired s) (hp : s.heap p = .live id si) (hfd : si.sockFd = fd)
    (hlisten : p ≠ s.listenItem) {mask : Mask} (hsi : si'.sockFd = fd)
    (hfits : Fits mask si'.callback) (hcb : si'.callback ≠ .acceptCallback) :
    Wired { s with
      heap := Function.update s.heap p (.live id si')
      epoll := Function.update s.epoll fd (some ⟨mask, p⟩) } := by
  constructor
  · intro fd' reg hreg
    by_cases hne : fd' = fd
    · subst hne
      simp only [Function.update_self, Option.some.injEq] at hreg
      subst hreg
      exact ⟨id, si', by simp, hsi, hfits⟩
    · simp only [Function.update_of_ne hne] at hreg
      obtain ⟨id₀, si₀, hsi₀, hrest⟩ := hs.item fd' reg hreg
      exact ⟨id₀, si₀, by simp [hs.data_ne hp hfd hne hreg, hsi₀], hrest⟩
  · intro q iq sq hq
    by_cases hqp : q = p
    · subst hqp
      simp only [Function.update_self, Block.live.injEq] at hq
      obtain ⟨rfl, rfl⟩ := hq
      exact ⟨_, by rw [hsi]; exact Function.update_self _ _ _, rfl⟩
    · simp only [Function.update_of_ne hqp] at hq
      obtain ⟨reg, hreg, hdata⟩ := hs.reg q iq sq hq
      have hne : sq.sockFd ≠ fd := hfd ▸ hs.sockFd_ne hp hq hqp
      exact ⟨reg, by simp [hne, hreg], hdata⟩
  · intro q iq sq hq
    by_cases hqp : q = p
    · subst hqp
      simp only [Function.update_self, Block.live.injEq] at hq
      obtain ⟨rfl, rfl⟩ := hq
      simp [hcb, hlisten]
    · simp only [Function.update_of_ne hqp] at hq
      exact hs.acceptor q iq sq hq
  · obtain ⟨il, sl, hsl⟩ := hs.listening
    exact ⟨il, sl, by simp [hlisten.symm, hsl]⟩
  · intro fd' hreg
    by_cases hne : fd' = fd
    · obtain ⟨reg', hreg', _⟩ := hs.reg p id si hp
      rw [hne, ← hfd]
      exact hs.opened _ (by simp [hreg'])
    · simp only [Function.update_of_ne hne] at hreg
      exact hs.opened fd' hreg

theorem Effect.wired (h : Effect s p id fd t) (hs : Wired s) (hp : s.heap p = .live id si)
    (hfd : si.sockFd = fd) : Wired t := by
  cases h with
  | keep => exact hs
  | enter hclient hq hsi hcb => exact hs.enter hclient hq hsi hcb
  | leave hlisten => exact hs.leave hp hfd hlisten
  | turn hlisten hsi hfits hcb => exact hs.turn hp hfd hlisten hsi hfits hcb

/-- A callback leaves the registrations of the other items alone. -/
theorem Effect.epoll_eq (h : Effect s p id fd t) (hs : Wired s) (hp : s.heap p = .live id si)
    (hfd : si.sockFd = fd) {fd' : Nat} (hreg : s.epoll fd' = some reg) (hdata : reg.data ≠ p) :
    t.epoll fd' = some reg := by
  have hne : fd' ≠ fd := by
    rintro rfl
    obtain ⟨reg', hreg', hdata'⟩ := hs.reg p id si hp
    rw [hfd, hreg] at hreg'
    cases hreg'
    exact hdata hdata'
  cases h with
  | keep => exact hreg
  | @enter q clientFd si' hclient hq hsi hcb =>
      have hold : fd' ≠ clientFd := by
        rintro rfl
        rw [hs.epoll_none hclient] at hreg
        cases hreg
      simp [hold, hreg]
  | leave hlisten => simp [hne, hreg]
  | turn hlisten hsi hfits hcb => simp [hne, hreg]

/-- A callback leaves the other live items alone. -/
theorem Effect.heap_eq (h : Effect s p id fd t) {id' : Nat} (hq : s.heap q = .live id' si')
    (hne : q ≠ p) : t.heap q = .live id' si' := by
  cases h with
  | keep => exact hq
  | @enter q' clientFd si hclient hq' hsi hcb =>
      have hold : q ≠ q' := by
        rintro rfl
        simp [hq, Block.isLive] at hq'
      simp [hold, hq]
  | leave hlisten => simp [hne, hq]
  | turn hlisten hsi hfits hcb => simp [hne, hq]

theorem Effect.frame (h : Effect s p id fd t) : t.batch = s.batch ∧ t.fault = s.fault := by
  cases h with
  | keep => exact ⟨rfl, rfl⟩
  | enter => exact ⟨rfl, rfl⟩
  | leave => exact ⟨rfl, rfl⟩
  | turn => exact ⟨rfl, rfl⟩

end Effects

/-! ## Runs -/

/-- What holds between two events. -/
structure Inv (s : State) : Prop where
  wired : Wired s
  queued : Queued s s.batch
  safe : s.fault = none

theorem start_heap (listenFd listenItem : Nat) (block : Sockitem) :
    (start listenFd listenItem block).heap listenItem =
      .live 0 { block with sockFd := listenFd, callback := .acceptCallback } := by
  simp [start]

theorem start_epoll (listenFd listenItem : Nat) (block : Sockitem) :
    (start listenFd listenItem block).epoll listenFd = some ⟨.input, listenItem⟩ := by
  simp [start]

theorem inv_start (listenFd listenItem : Nat) (block : Sockitem) :
    Inv (start listenFd listenItem block) := by
  constructor
  · constructor
    · intro fd reg hreg
      by_cases hfd : fd = listenFd
      · subst hfd
        simp only [start, Function.update_self, Option.some.injEq] at hreg
        subst hreg
        exact ⟨_, _, start_heap _ _ _, rfl, .inl ⟨rfl, .inr rfl⟩⟩
      · simp [start, hfd] at hreg
    · intro p id si hp
      by_cases hlisten : p = listenItem
      · subst hlisten
        simp only [start, Function.update_self, Block.live.injEq] at hp
        obtain ⟨rfl, rfl⟩ := hp
        exact ⟨_, start_epoll _ _ _, rfl⟩
      · simp [start, hlisten] at hp
    · intro p id si hp
      by_cases hlisten : p = listenItem
      · subst hlisten
        simp only [start, Function.update_self, Block.live.injEq] at hp
        obtain ⟨rfl, rfl⟩ := hp
        simp [start]
      · simp [start, hlisten] at hp
    · exact ⟨_, _, start_heap _ _ _⟩
    · intro fd hreg
      by_cases hfd : fd = listenFd
      · simp [start, hfd]
      · simp [start, hfd] at hreg
  · exact ⟨List.nodup_nil, by simp [start], by simp [start]⟩
  · rfl

/-- A new batch points to distinct registered items. -/
theorem queued_stored {s : State} (hs : Wired s) {ready : List (Nat × Report)}
    (h : Ready s ready) : Queued s (stored s ready) := by
  obtain ⟨hnodup, hready⟩ := h
  have hmem : ∀ e' ∈ stored s ready, ∃ e ∈ ready, ∃ reg, s.epoll e.1 = some reg ∧
      e' = ⟨reg.data, e.2, itemAt s reg.data⟩ := by
    intro e' he'
    obtain ⟨e, he, hsome⟩ := List.mem_filterMap.1 he'
    obtain ⟨reg, hr, rfl⟩ := Option.map_eq_some_iff.1 hsome
    exact ⟨e, he, reg, hr, rfl⟩
  constructor
  · -- two descriptors that are registered with the same item are equal
    have hinj : ∀ fd fd' p, p ∈ (s.epoll fd).map Registration.data →
        p ∈ (s.epoll fd').map Registration.data → fd = fd' := by
      intro fd fd' p hp hp'
      obtain ⟨reg, hr, rfl⟩ := Option.map_eq_some_iff.1 hp
      obtain ⟨reg', hr', hdata⟩ := Option.map_eq_some_iff.1 hp'
      obtain ⟨id, si, hsi, hfd, _⟩ := hs.item fd reg hr
      exact hfd.symm.trans (hs.fd_unique hsi hr' hdata).symm
    have hmap : (stored s ready).map Event.ptr =
        (ready.map Prod.fst).filterMap fun fd => (s.epoll fd).map Registration.data := by
      simp [stored, List.map_filterMap, List.filterMap_map, Function.comp_def]
    rw [hmap]
    exact hnodup.filterMap hinj
  · intro e' he'
    obtain ⟨e, he, reg, hr, rfl⟩ := hmem e' he'
    obtain ⟨reg', hr', hamong⟩ := hready e he
    rw [hr] at hr'
    cases hr'
    exact ⟨e.1, reg, hr, rfl, hamong⟩
  · intro e' he'
    obtain ⟨e, he, reg, hr, rfl⟩ := hmem e' he'
    obtain ⟨id, si, hsi, _⟩ := hs.item e.1 reg hr
    exact ⟨si, by simp [itemAt, hsi]⟩

/-- The loop body calls at most one callback, through the registered item and for its direction. -/
theorem handle_effect {s t : State} {e : Event} {fd : Nat} {reg : Registration Nat} {si : Sockitem}
    {r₁ r₂ : Results} (hs : Wired s) (hreg : s.epoll fd = some reg) (hdata : reg.data = e.ptr)
    (halive : s.heap e.ptr = .live e.item si) (hamong : e.bits.Among reg.mask)
    (h : ((testIn s e r₁).bind fun t => testOut t e r₂) = some t) :
    Effect s e.ptr e.item fd t := by
  obtain ⟨id', si', _, _, hfits⟩ := hs.item fd reg hreg
  obtain ⟨hin, hout⟩ := hamong
  obtain ⟨u, hu, ht⟩ := Option.bind_eq_some_iff.1 h
  rcases hfits with ⟨hmask, _⟩ | ⟨hmask, _⟩
  · -- registered for input: `EPOLLOUT` is not reported
    have hno : e.bits.epollout = false := by simpa [hmask, Mask.input] using hout
    obtain rfl : u = t := by simpa [testOut, hno] using ht
    by_cases hrep : e.bits.epollin = true
    · simp only [testIn, hrep, if_true] at hu
      exact call_effect hs hreg hdata halive true (by simpa using hmask) hu
    · obtain rfl : s = u := by simpa [testIn, hrep] using hu
      exact .keep
  · -- registered for output: the first test does nothing
    have hno : e.bits.epollin = false := by simpa [hmask, Mask.output] using hin
    obtain rfl : s = u := by simpa [testIn, hno] using hu
    by_cases hrep : e.bits.epollout = true
    · simp only [testOut, hrep, if_true] at ht
      exact call_effect hs hreg hdata halive false (by simpa using hmask) ht
    · obtain rfl : s = t := by simpa [testOut, hrep] using ht
      exact .keep

/-- `Wired` does not depend on the batch. -/
theorem Wired.setBatch {s : State} (hs : Wired s) (batch : List Event) :
    Wired { s with batch := batch } :=
  ⟨hs.item, hs.reg, hs.acceptor, hs.listening, hs.opened⟩

theorem inv_step {s t : State} {a : Act} (hs : Inv s) (h : step s a = some t) : Inv t := by
  cases a with
  | wait ready =>
      simp only [step] at h
      split at h
      next hguard =>
        cases h
        have hq := queued_stored hs.wired hguard.2.2
        exact ⟨hs.wired.setBatch _, ⟨hq.nodup, hq.registered, hq.alive⟩, hs.safe⟩
      next => cases h
  | handle r₁ r₂ =>
      simp only [step] at h
      split at h
      next e rest _ hbatch =>
        obtain ⟨hnodup, hregistered, halive⟩ := hs.queued
        rw [hbatch] at hnodup hregistered halive
        obtain ⟨fd, reg, hreg, hdata, hamong⟩ := hregistered e (by simp)
        obtain ⟨si, hsi⟩ := halive e (by simp)
        have hfd : si.sockFd = fd := (hs.wired.fd_unique hsi hreg hdata).symm
        have hw := hs.wired.setBatch rest
        have heffect := handle_effect hw hreg hdata hsi hamong h
        obtain ⟨hbatch', hfault⟩ := heffect.frame
        simp only [List.map_cons, List.nodup_cons] at hnodup
        -- the other events of the batch point to other items
        have hother : ∀ e' ∈ rest, e'.ptr ≠ e.ptr := by
          intro e' he' heq
          exact hnodup.1 (heq ▸ List.mem_map_of_mem he')
        refine ⟨heffect.wired hw hsi hfd, ?_, by rw [hfault]; exact hs.safe⟩
        rw [hbatch']
        constructor
        · exact hnodup.2
        · intro e' he'
          obtain ⟨fd', reg', hreg', hdata', hamong'⟩ := hregistered e' (List.mem_cons_of_mem _ he')
          have hne : reg'.data ≠ e.ptr := hdata' ▸ hother e' he'
          exact ⟨fd', reg', heffect.epoll_eq hw hsi hfd hreg' hne, hdata', hamong'⟩
        · intro e' he'
          obtain ⟨si', hsi'⟩ := halive e' (List.mem_cons_of_mem _ he')
          exact ⟨si', heffect.heap_eq hsi' (hother e' he')⟩
      next => cases h

/-- Every live client item is registered under its own descriptor, for exactly one direction and with the
callback for it; freed items are registered nowhere; and no callback has been called through a pointer
whose item was gone, nor the wrong one. -/
structure DispatchSafe (s : State) : Prop where
  client : ∀ p id si, s.heap p = .live id si → p ≠ s.listenItem →
    ∃ reg, s.epoll si.sockFd = some reg ∧ reg.data = p ∧
      reg.mask.epollin ≠ reg.mask.epollout ∧
      (si.callback = .recvCallback ↔ reg.mask.epollin = true) ∧
      (si.callback = .sendCallback ↔ reg.mask.epollout = true)
  freed : ∀ p, s.heap p = .freed → ∀ fd reg, s.epoll fd = some reg → reg.data ≠ p
  noFault : s.fault = none

theorem Inv.dispatchSafe {s : State} (hs : Inv s) : DispatchSafe s := by
  constructor
  · intro p id si hp hlisten
    obtain ⟨reg, hreg, hdata⟩ := hs.wired.reg p id si hp
    obtain ⟨id', si', hsi', _, hfits⟩ := hs.wired.item _ reg hreg
    rw [hdata, hp] at hsi'
    cases hsi'
    have haccept := hs.wired.acceptor p id si hp
    refine ⟨reg, hreg, hdata, ?_⟩
    rcases hfits with ⟨hmask, hcb | hcb⟩ | ⟨hmask, hcb⟩
    · simp [hmask, hcb, Mask.input]
    · exact absurd (haccept.1 hcb) hlisten
    · simp [hmask, hcb, Mask.output]
  · intro p hp fd reg hreg hdata
    obtain ⟨id, si, hsi, _⟩ := hs.wired.item fd reg hreg
    rw [hdata, hp] at hsi
    cases hsi
  · exact hs.safe

/-- **Dispatch is safe in every reachable state.** For every listening socket, every run of the event loop and
every result of `accept`, `recv` and `send`, with descriptors and addresses reused in any way. -/
theorem dispatchSafe_of_reaches (listenFd listenItem : Nat) (block : Sockitem) (s : State)
    (h : Reaches step (start listenFd listenItem block) s) : DispatchSafe s := by
  have hinv : Inv s := h.invariant (fun _ _ _ hs hstep => inv_step hs hstep)
    (inv_start listenFd listenItem block)
  exact hinv.dispatchSafe

/-- Control: a connection is accepted, and in one batch with the next one it ends; its item is freed, and the
next connection takes over both its descriptor and its address. -/
theorem dispatchSafe_reused_address :
    ∃ s, Reaches step (start 3 0 ⟨0, .recvCallback, .zeroed, .zeroed, 0, 0⟩) s ∧
      (s.heap 1).isLive = true ∧ s.next = 3 ∧ DispatchSafe s := by
  let block : Sockitem := ⟨0, .recvCallback, .zeroed, .zeroed, 0, 0⟩
  let idle : Results := ⟨none, 0, block, .again⟩
  let ready : Report := ⟨true, false, false, false⟩
  let as : List Act :=
    [.wait [(3, ready)], .handle ⟨some 4, 1, block, .again⟩ idle,
      .wait [(4, ready), (3, ready)], .handle ⟨none, 0, block, .data []⟩ idle,
      .handle ⟨some 4, 1, block, .again⟩ idle]
  have hrun : ∃ s, run step (start 3 0 block) as = some s ∧ (s.heap 1).isLive = true ∧ s.next = 3 :=
    ⟨_, rfl, rfl, rfl⟩
  obtain ⟨s, hs, hlive, hnext⟩ := hrun
  exact ⟨s, ⟨as, hs⟩, hlive, hnext, dispatchSafe_of_reaches 3 0 block s ⟨as, hs⟩⟩

end CppMisc.EpollV2
