import Mathlib.Tactic

/-!
# The delay test of `kcp_learn/client.c`

`delay_test2` sends a number of probes through KCP and receives their echoes. The first loop sends a probe
in each iteration and receives an echo if one has arrived; the second loop receives the others. Both loops
copy an echo into the array `objs` at their own index, and set the time of receipt at the number of echoes
received so far.

KCP is taken to deliver the echoes intact, in the order of sending, and in the size of an object, so the
echo that comes next is known from what was sent. An iteration of a loop is described by the values of
the clock: when its probe was sent, and when an echo was received in it, if one was. The waiting loop goes
on until all echoes have arrived; a description that ends before has no result. The field `body` of an
object is only copied along and is left out.
-/

set_option autoImplicit false

namespace CppMisc.KcpClient

/-- `t_delay_obj`. -/
structure DelayObj where
  seqno : UInt16
  sendTime : Int
  recvTime : Int

/-- `delay_set_seqno_send_time`, at the time `now`. The argument is converted to `uint16_t`. -/
def delaySetSeqnoSendTime (obj : DelayObj) (seqno : Nat) (now : Int) : DelayObj :=
  { obj with seqno := UInt16.ofNat seqno, sendTime := now }

/-- `delay_set_recv_time`, at the time `now`. -/
def delaySetRecvTime (obj : DelayObj) (now : Int) : DelayObj := { obj with recvTime := now }

/-- `delay_print_rtt_time`: the lines it prints. -/
def delayPrintRttTime (objs : Nat → DelayObj) (num : Nat) : List (Nat × UInt16 × Int) :=
  (List.range num).map fun i => (i, (objs i).seqno, (objs i).recvTime - (objs i).sendTime)

/-- The variables of `delay_test2`, and the objects that were sent. -/
structure State where
  objs : Nat → DelayObj
  sent : List DelayObj
  recvObjs : Nat

/-- An iteration of the sending loop. -/
structure Iteration where
  sendTime : Int
  arrival : Option Int

/-- What both loops do with an echo: `ikcp_recv` writes it to `objs[i]`, then the time is set at
`objs[recv_objs]`. -/
def receive (s : State) (i : Nat) (now : Int) : Option State :=
  match s.sent[s.recvObjs]? with
  | none => none
  | some echo =>
      let objs := Function.update s.objs i echo
      some { s with
        objs := Function.update objs s.recvObjs (delaySetRecvTime (objs s.recvObjs) now)
        recvObjs := s.recvObjs + 1 }

/-- The probe of an iteration: `ikcp_send` takes over what `objs[i]` is then. -/
def sendProbe (s : State) (i : Nat) (now : Int) : State :=
  let obj := delaySetSeqnoSendTime (s.objs i) i now
  { s with objs := Function.update s.objs i obj, sent := s.sent ++ [obj] }

/-- The sending loop from the index `i` on. -/
def sendLoop : List Iteration → Nat → State → Option State
  | [], _, s => some s
  | it :: its, i, s =>
      match it.arrival with
      | none => sendLoop its (i + 1) (sendProbe s i it.sendTime)
      | some now => (receive (sendProbe s i it.sendTime) i now).bind (sendLoop its (i + 1))

/-- The waiting loop from the index `i` on. -/
def waitLoop (n : Nat) : List (Option Int) → Nat → State → Option State
  | [], i, s => if i < n then none else some s
  | arrival :: arrivals, i, s =>
      if i < n then
        match arrival with
        | none => waitLoop n arrivals i s
        | some now => (receive s i now).bind (waitLoop n arrivals (i + 1))
      else some s

/-- `delay_test2`: the array when it is printed. `junk` is what `malloc` returns, and there are as many
probes as iterations of the sending loop. -/
def delayTest2 (junk : Nat → DelayObj) (sends : List Iteration) (waits : List (Option Int)) :
    Option (Nat → DelayObj) :=
  (sendLoop sends 0 ⟨junk, [], 0⟩).bind fun s =>
    (waitLoop sends.length waits s.recvObjs s).map State.objs

end CppMisc.KcpClient
