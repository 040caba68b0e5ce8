import DistQueue.Client.Commands
import DistQueue.Server.Blanks
import DistQueue.Server.Faults
import DistQueue.Server.Wakeup

/-!
# A client session

One client and the thread that serves it, in a server that goes on as it
likes with everybody else. The connection is two reliable queues of messages,
so each direction is the list of what was sent and the number of what has been
received.

Replies carry no number. That each one is for the request before it comes from
counting: the client sends one request, waits for one message and takes it, and
the thread sends one reply for each request that it receives. A reply can be
long in coming: the thread first puts the job of the submission before, and for
that it may have to wait for room in the queue.
-/

namespace DistQueue

open DistQueue.Lib

variable {N : Nat}

/-! ## The composed system -/

/-- `conn` is the thread of the connection. `calls` has an entry for each call
of `client_protocol`: how many messages had been sent by then. -/
structure Session (N : Nat) where
  server : Sys N
  conn : Nat
  client : Client.Pc
  sent : List SetterCall
  received : Nat
  replies : List (List UInt8)
  taken : Nat
  calls : List Nat

inductive SessionAction
  /-- A command is typed. -/
  | type (command : Client.Command) (calls : Client.Calls)
  /-- `client_protocol` gets its message. -/
  | recvMsg
  /-- `client_accept` returns. -/
  | clientAccept
  /-- The thread gets the next message, over what its buffer held. -/
  | deliver (buf : Msg) (blank : Job)
  /-- Anything else in the server. -/
  | server (a : Action)

namespace Session

/-- The client has just connected. -/
def connect (server : Sys N) : Session N where
  server := { server with threads := server.threads ++ [.attendClient] }
  conn := server.threads.length
  client := .command
  sent := []
  received := 0
  replies := []
  taken := 0
  calls := []

def type (s : Session N) (command : Client.Command) (calls : Client.Calls) :
    Option (Session N) :=
  match s.client with
  | .command =>
      let (message, client) := Client.run calls command
      let sent := s.sent ++ message.toList
      some
        { s with
          client := client
          sent := sent
          calls := match client with
            | .clientProtocol _ => s.calls ++ [sent.length]
            | _ => s.calls }
  | _ => none

def recvMsg (s : Session N) : Option (Session N) :=
  match s.client with
  | .clientProtocol interactive =>
      if s.taken < s.replies.length then
        some { s with client := Client.afterProtocol interactive, taken := s.taken + 1 }
      else none
  | _ => none

def clientAccept (s : Session N) : Option (Session N) :=
  match s.client with
  | .clientAccept => some { s with client := .command }
  | _ => none

variable [NeZero N]

def deliver (s : Session N) (buf : Msg) (blank : Job) : Option (Session N) :=
  match s.sent[s.received]? with
  | some c =>
      (s.server.step (.receive s.conn (buf.over c.wire) blank)).map fun server =>
        { s with server := server, received := s.received + 1 }
  | none => none

/-- What the step passes to `send` on the connection. -/
def repliesOf (s : Session N) (a : Action) : List (List UInt8) :=
  ((s.server.passes a).filter fun x => decide (x.1 = s.conn)).map Prod.snd

/-- The connection works: the thread hears of nothing but the messages, and what
it passes to `send` is sent. -/
def Works (s : Session N) : Action → Prop
  | .receive t _ _ | .hangup t => t ≠ s.conn
  | .run t env => t = s.conn → env.ok = true
  | _ => True

instance (s : Session N) (a : Action) : Decidable (s.Works a) := by
  unfold Works
  split <;> infer_instance

def step (s : Session N) : SessionAction → Option (Session N)
  | .type command calls => s.type command calls
  | .recvMsg => s.recvMsg
  | .clientAccept => s.clientAccept
  | .deliver buf blank => s.deliver buf blank
  | .server a =>
      if s.Works a then
        (s.server.step a).map fun server =>
          { s with server := server, replies := s.replies ++ s.repliesOf a }
      else none

end Session

/-! ## The thread of the connection -/

section Thread

/-- The thread is in the handler of this request and has not replied yet. -/
def Pc.Serves (c : SetterCall) : Pc N → Prop
  | .newJob _ | .numberJob _ _ | .submittedResponse _ _ _ => Client.Submits c
  | .jobState jobid => c = .jobStateClient jobid
  | .queueState queueid => c = .queueStateClient queueid
  | .unsubmit jobid | .unsubmitQueue jobid _ _ | .removeJob jobid _ _ | .markUnsubmited jobid _ =>
      c = .unsubmitClient jobid
  | .reply answer => Client.AnsweredBy (answer.msg (Msg.fill 0)).wire c
  | _ => False

/-- The thread has replied to everything it has received. -/
def Pc.Between : Pc N → Prop
  | .attendClient | .putJob .newJob _ _ _ => True
  | _ => False

/-- How many steps of its own a thread is away from its reply. -/
def Pc.toReply : Pc N → Nat
  | .submittedResponse _ _ _ | .reply _ => 1
  | .numberJob _ _ | .jobState _ | .queueState _ | .markUnsubmited _ _ => 2
  | .newJob _ | .removeJob _ _ _ => 3
  | .unsubmitQueue _ _ _ => 4
  | .unsubmit _ => 5
  | _ => 0

variable {c : SetterCall} {pc : Pc N}

theorem Pc.Serves.toReply_pos (h : pc.Serves c) : 0 < pc.toReply := by
  cases pc with
  | newJob | numberJob | submittedResponse | jobState | queueState | unsubmit | unsubmitQueue
  | removeJob | markUnsubmited | reply => exact Nat.succ_pos _
  | _ => cases h

theorem Pc.Between.wake (h : pc.Between) : pc.wake.Between := by
  cases pc with
  | attendClient => trivial
  | putJob caller i job wait =>
      cases caller with
      | newJob => cases wait <;> trivial
      | putJobBack queueIdx => cases h
  | _ => cases h

theorem Pc.Serves.wake (h : pc.Serves c) : pc.wake = pc := by
  cases pc with
  | putJob | getJob => cases h
  | _ => rfl

/-- A request that arrives sends its thread into its handler. -/
theorem receiveClient_serves (hc : Client.Request c) {m : Msg} (hm : c.Arrived m) (heap : Heap)
    (blank : Job) : (receiveClient heap m blank : Option Job × Pc N).2.Serves c := by
  cases c with
  | fileExecNoInterClient => rw [submitNoInter_taken hm.getType]; trivial
  | fileExecInterClient => rw [submitInter_taken hm.getType]; trivial
  | jobStateClient jobid =>
      have hid : getJobID m = jobid := hm.readBack trivial
      rw [jobState_taken hm.getType, hid]
      rfl
  | queueStateClient queueid =>
      have hid : getQueueID m = queueid := hm.readBack trivial
      rw [queueState_taken hm.getType, hid]
      rfl
  | unsubmitClient jobid =>
      have hid : getJobID m = jobid := hm.readBack trivial
      rw [unsubmit_taken hm.getType, hid]
      rfl
  | _ => cases hc

theorem receiveClient_closed {m : Msg} (hm : SetterCall.closedConnection.Arrived m) (heap : Heap)
    (blank : Job) : (receiveClient heap m blank : Option Job × Pc N).2 = .closed := by
  rw [clientClosed_taken hm.getType]

/-- The answer is about the id that was asked for. -/
theorem jobid_of_jobState {h : History} {jobid : UInt16} {reported : JobStateMsg}
    (hstate : h.jobState jobid = .ok (some reported)) : reported.jobid = jobid := by
  rw [History.jobState] at hstate
  split at hstate
  · cases hstate
  · obtain ⟨job, -, hstate⟩ := bind_ok hstate
    injection hstate with hstate
    injection hstate with hstate
    rw [← hstate]

/-- A section of a handler goes on in the handler and sends nothing, or sends
the reply and is done with the request. -/
theorem run_serves [NeZero N] {s : Sys N} {t : Nat} {env : Env} (ht : s.threads[t]? = some pc)
    (hpc : pc.Serves c) :
    (s.passes (.run t env) = [] ∧ ∀ r, pc.run s.server s.heap t env = some (.ok r) →
        r.pc.Serves c ∧ r.pc.toReply < pc.toReply) ∨
      ∃ wire, s.passes (.run t env) = [(t, wire)] ∧ Client.AnsweredBy wire c ∧
        ∀ r, pc.run s.server s.heap t env = some (.ok r) → r.pc.Between := by
  simp only [Sys.passes, ht]
  cases pc with
  | newJob job =>
      refine .inl ⟨rfl, fun r hrun => ?_⟩
      cases run_ran hrun
      exact ⟨hpc, Nat.lt_succ_self 2⟩
  | numberJob job queueIdx =>
      refine .inl ⟨rfl, fun r hrun => ?_⟩
      cases run_ran hrun
      exact ⟨hpc, Nat.lt_succ_self 1⟩
  | submittedResponse job queueIdx newJobid =>
      refine .inr ⟨_, rfl, ?_, fun r hrun => ?_⟩
      · have hwire : (setJobID env.stack newJobid).wire = (SetterCall.jobID newJobid).wire :=
          SetterCall.apply_wire env.stack (.jobID newJobid)
        cases c with
        | fileExecNoInterClient | fileExecInterClient => exact ⟨newJobid, hwire⟩
        | _ => cases hpc
      · cases run_ran hrun
        trivial
  | jobState jobid =>
      obtain rfl := hpc
      refine .inl ⟨rfl, fun r hrun => ?_⟩
      injection hrun with hrun
      obtain ⟨answer, hstate, hrun⟩ := bind_ok hrun
      injection hrun with hrun; subst hrun
      refine ⟨?_, Nat.lt_succ_self 1⟩
      cases answer with
      | none => exact .inl (SetterCall.apply_wire _ .badParams)
      | some reported =>
          have hid := jobid_of_jobState hstate
          refine .inr ⟨reported.state, reported.exitValue, ?_⟩
          rw [← hid]
          exact SetterCall.apply_wire _ (.jobState reported)
  | queueState queueid =>
      obtain rfl := hpc
      refine .inl ⟨rfl, fun r hrun => ?_⟩
      injection hrun with hrun; injection hrun with hrun; subst hrun
      rw [queueStateSection]
      split
      · exact ⟨.inr ⟨_, SetterCall.apply_wire _ (.queueState ⟨_, queueid⟩)⟩, Nat.lt_succ_self 1⟩
      · exact ⟨.inl (SetterCall.apply_wire _ .badParams), Nat.lt_succ_self 1⟩
  | unsubmit jobid =>
      obtain rfl := hpc
      refine .inl ⟨rfl, fun r hrun => ?_⟩
      cases run_ran hrun with
      | unsubmitRefused =>
          exact ⟨.inl (SetterCall.apply_wire _ .badParams), Nat.succ_lt_succ (Nat.succ_pos 3)⟩
      | unsubmit => exact ⟨rfl, Nat.lt_succ_self 4⟩
  | unsubmitQueue jobid qIdx found =>
      refine .inl ⟨rfl, fun r hrun => ?_⟩
      cases run_ran hrun
      exact ⟨hpc, Nat.lt_succ_self 3⟩
  | removeJob jobid i found =>
      refine .inl ⟨rfl, fun r hrun => ?_⟩
      cases run_ran hrun
      exact ⟨hpc, Nat.lt_succ_self 2⟩
  | markUnsubmited jobid found =>
      obtain rfl := hpc
      refine .inl ⟨rfl, fun r hrun => ?_⟩
      cases run_ran hrun
      exact ⟨.inr (SetterCall.apply_wire _ (.unsubmit jobid)), Nat.lt_succ_self 1⟩
  | reply answer =>
      refine .inr ⟨_, rfl, ?_, fun r hrun => ?_⟩
      · rw [Answer.wire_msg answer _ (Msg.fill 0)]
        exact hpc
      · cases run_ran hrun
        trivial
  | _ => cases hpc

/-- Between two requests a section sends nothing. -/
theorem run_between [NeZero N] {s : Sys N} {t : Nat} {env : Env} (ht : s.threads[t]? = some pc)
    (hpc : pc.Between) : s.passes (.run t env) = [] ∧
      ∀ r, pc.run s.server s.heap t env = some (.ok r) → r.pc.Between := by
  simp only [Sys.passes, ht]
  cases pc with
  | attendClient => exact ⟨rfl, fun r hrun => by cases hrun⟩
  | putJob caller i job wait =>
      cases caller with
      | newJob =>
          refine ⟨rfl, fun r hrun => ?_⟩
          cases run_ran hrun with
          | putJobWait => trivial
          | putJob => trivial
      | putJobBack queueIdx => cases hpc
  | _ => cases hpc

/-- Where a thread stands behind a step of its own: in what the section leads
to, or back from a wait. -/
theorem step_own [NeZero N] {s s' : Sys N} {t : Nat} {env : Env} (ht : s.threads[t]? = some pc)
    (h : s.step (.run t env) = some s') {P : Pc N → Prop} (hwake : ∀ pc, P pc → P pc.wake)
    (hP : ∀ r, pc.run s.server s.heap t env = some (.ok r) → P r.pc) (hfault : s'.fault = none) :
    ∃ pc', s'.threads[t]? = some pc' ∧ P pc' := by
  rcases step_run_eq h ht with ⟨r, hrun, rfl⟩ | ⟨fault, -, rfl⟩
  · rcases commit_self ht env.pick r with hself | hself
    · exact ⟨r.pc, hself, hP r hrun⟩
    · exact ⟨r.pc.wake, hself, hwake _ (hP r hrun)⟩
  · cases hfault

end Thread

/-! ## Requests and replies are counted alike -/

namespace Session

/-- Where the thread stands with what it has received and sent. -/
def Stands (s : Session N) (pc : Pc N) : Prop :=
  (pc.Between ∧ s.received = s.replies.length) ∨
    ∃ c, s.sent[s.replies.length]? = some c ∧ s.received = s.replies.length + 1 ∧
      (pc.Serves c ∨ c = .closedConnection ∧ pc = .closed)

/-- The client's side: call `k` of `client_protocol` is made behind request `k`,
and takes message `k`. -/
structure AtClient (s : Session N) : Prop where
  calls : ∀ (k n : Nat), s.calls[k]? = some n → n = k + 1
  requests : ∀ k < s.calls.length, ∃ c, s.sent[k]? = some c ∧ Client.Request c
  place :
    match s.client with
    | .command | .clientAccept => s.sent.length = s.calls.length ∧ s.taken = s.calls.length
    | .clientProtocol _ => s.sent.length = s.calls.length ∧ s.taken + 1 = s.calls.length
    | .stopped => s.taken = s.calls.length ∧ s.sent.length = s.calls.length + 1 ∧
        s.sent[s.calls.length]? = some .closedConnection

/-- The server's side. -/
structure Matched (s : Session N) : Prop where
  client : s.AtClient
  received_le : s.received ≤ s.sent.length
  taken_le : s.taken ≤ s.replies.length
  answered : ∀ (k : Nat) (wire : List UInt8), s.replies[k]? = some wire →
    ∃ c, s.sent[k]? = some c ∧ Client.AnsweredBy wire c
  thread : s.server.fault = none →
    ∃ pc, s.server.threads[s.conn]? = some pc ∧ s.Stands pc

variable {s s' : Session N}

theorem AtClient.message (h : s.AtClient) {k : Nat} {c : SetterCall} (hk : s.sent[k]? = some c) :
    Client.Request c ∨ c = .closedConnection := by
  have hlt := (List.getElem?_eq_some_iff.mp hk).1
  have hplace := h.place
  rcases Nat.lt_or_ge k s.calls.length with hcall | hcall
  · obtain ⟨c', hc', hreq⟩ := h.requests k hcall
    rw [hk] at hc'
    injection hc' with hc'
    exact .inl (hc' ▸ hreq)
  · split at hplace
    · omega
    · omega
    · omega
    · obtain ⟨-, hlen, hlast⟩ := hplace
      obtain rfl : k = s.calls.length := by omega
      rw [hk] at hlast
      injection hlast with hlast
      exact .inr hlast

theorem matched_connect (server : Sys N) : (connect server).Matched where
  client := ⟨fun k n h => (by cases h), fun k h => absurd h (Nat.not_lt_zero k), ⟨rfl, rfl⟩⟩
  received_le := Nat.le_refl _
  taken_le := Nat.le_refl _
  answered := fun k wire h => by cases h
  thread := fun _ => ⟨.attendClient, List.getElem?_concat_length, .inl ⟨trivial, rfl⟩⟩

theorem sent_append {sent : List SetterCall} {k : Nat} {c : SetterCall} (h : sent[k]? = some c)
    (more : List SetterCall) : (sent ++ more)[k]? = some c := by
  rw [List.getElem?_append_left (List.getElem?_eq_some_iff.mp h).1, h]

/-- What the client adds is behind everything the thread has to do with. -/
theorem Matched.send (h : s.Matched) {client : Client.Pc} {more : List SetterCall}
    {calls : List Nat}
    (hclient : AtClient { s with client := client, sent := s.sent ++ more, calls := calls }) :
    Matched { s with client := client, sent := s.sent ++ more, calls := calls } where
  client := hclient
  received_le := by
    rw [List.length_append]
    exact Nat.le_add_right_of_le h.received_le
  taken_le := h.taken_le
  answered := by
    intro k wire hk
    obtain ⟨c, hc, hans⟩ := h.answered k wire hk
    exact ⟨c, sent_append hc more, hans⟩
  thread := by
    intro hfault
    obtain ⟨pc, hpc, hstands⟩ := h.thread hfault
    refine ⟨pc, hpc, hstands.imp_right ?_⟩
    rintro ⟨c, hc, hrest⟩
    exact ⟨c, sent_append hc more, hrest⟩

/-- A round of the client. -/
theorem Matched.type {command : Client.Command} {calls : Client.Calls} (h : s.Matched)
    (hready : calls.Ready command) (hstep : s.type command calls = some s') : s'.Matched := by
  obtain ⟨hcalls, hreqs, hplace⟩ := h.client
  unfold Session.type at hstep
  split at hstep
  · next hpc =>
      rw [hpc] at hplace
      obtain ⟨hlen, htaken⟩ := hplace
      rcases Client.run_cases hready with ⟨request, interactive, hreq, hrun⟩ | hrun | hrun
      · rw [hrun] at hstep
        injection hstep with hstep; subst hstep
        refine h.send ⟨fun k n hk => ?_, fun k hk => ?_, ?_⟩
        · rcases Nat.lt_or_ge k s.calls.length with hlt | hge
          · rw [List.getElem?_append_left hlt] at hk
            exact hcalls k n hk
          · rw [List.getElem?_append_right hge] at hk
            obtain ⟨hlt, hn⟩ := List.getElem?_eq_some_iff.mp hk
            rw [List.getElem_singleton, List.length_append] at hn
            have hone : k - s.calls.length < 1 := hlt
            have hlen' : s.sent.length + 1 = n := hn
            omega
        · rcases Nat.lt_or_ge k s.calls.length with hlt | hge
          · obtain ⟨c, hc, hcreq⟩ := hreqs k hlt
            exact ⟨c, sent_append hc _, hcreq⟩
          · rw [List.length_append] at hk
            obtain rfl : k = s.sent.length := by
              have hk' : k < s.calls.length + 1 := hk
              omega
            exact ⟨request, List.getElem?_concat_length, hreq⟩
        · show (s.sent ++ [request]).length = (s.calls ++ [(s.sent ++ [request]).length]).length ∧
            s.taken + 1 = (s.calls ++ [(s.sent ++ [request]).length]).length
          rw [List.length_append, List.length_append, hlen, htaken]
          exact ⟨rfl, rfl⟩
      · rw [hrun] at hstep
        injection hstep with hstep; subst hstep
        refine h.send ⟨hcalls, fun k hk => ?_, ?_⟩
        · obtain ⟨c, hc, hcreq⟩ := hreqs k hk
          exact ⟨c, sent_append hc _, hcreq⟩
        · refine ⟨htaken, ?_, ?_⟩
          · show (s.sent ++ [SetterCall.closedConnection]).length = s.calls.length + 1
            rw [List.length_append, hlen]
            rfl
          · show (s.sent ++ [SetterCall.closedConnection])[s.calls.length]? = _
            rw [← hlen]
            exact List.getElem?_concat_length
      · rw [hrun] at hstep
        injection hstep with hstep; subst hstep
        refine h.send ⟨hcalls, fun k hk => ?_, ?_⟩
        · obtain ⟨c, hc, hcreq⟩ := hreqs k hk
          exact ⟨c, sent_append hc _, hcreq⟩
        · show (s.sent ++ []).length = s.calls.length ∧ s.taken = s.calls.length
          rw [List.append_nil]
          exact ⟨hlen, htaken⟩
  · cases hstep

theorem Matched.recvMsg (h : s.Matched) (hstep : s.recvMsg = some s') : s'.Matched := by
  obtain ⟨⟨hcalls, hreqs, hplace⟩, hrec, htaken, hans, hthread⟩ := h
  unfold Session.recvMsg at hstep
  split at hstep
  · next interactive hpc =>
      split at hstep
      · next hlt =>
          injection hstep with hstep; subst hstep
          rw [hpc] at hplace
          refine ⟨⟨hcalls, hreqs, ?_⟩, hrec, hlt, hans, hthread⟩
          cases interactive <;> exact hplace
      · cases hstep
  · cases hstep

theorem Matched.clientAccept (h : s.Matched) (hstep : s.clientAccept = some s') : s'.Matched := by
  obtain ⟨⟨hcalls, hreqs, hplace⟩, hrec, htaken, hans, hthread⟩ := h
  unfold Session.clientAccept at hstep
  split at hstep
  · next hpc =>
      injection hstep with hstep; subst hstep
      rw [hpc] at hplace
      exact ⟨⟨hcalls, hreqs, hplace⟩, hrec, htaken, hans, hthread⟩
  · cases hstep

section Server

variable [NeZero N]

theorem receive_attendClient {server : Sys N} {t : Nat} (hfault : server.fault = none)
    (ht : server.threads[t]? = some .attendClient) (m : Msg) (blank : Job) :
    ∃ server', server.step (.receive t m blank) = some server' ∧
      server'.threads[t]? = some (receiveClient server.heap m blank : Option Job × Pc N).2 := by
  have hlen := (List.getElem?_eq_some_iff.mp ht).1
  unfold Sys.step
  rw [if_pos hfault]
  dsimp only [Sys.receive]
  rw [ht]
  dsimp only
  split
  · next hres => exact ⟨_, rfl, by rw [hres]; exact List.getElem?_set_self hlen⟩
  · next hres => exact ⟨_, rfl, by rw [hres]; exact List.getElem?_set_self hlen⟩

theorem Matched.deliver {buf : Msg} {blank : Job} (h : s.Matched)
    (hstep : s.deliver buf blank = some s') : s'.Matched := by
  unfold Session.deliver at hstep
  split at hstep
  · next c hc =>
      obtain ⟨server, hserver, rfl⟩ := Option.map_eq_some_iff.mp hstep
      have hfault := (step_cases hserver).1
      obtain ⟨pc, hpc, hstands⟩ := h.thread hfault
      have hlt := (List.getElem?_eq_some_iff.mp hc).1
      refine ⟨⟨h.client.calls, h.client.requests, h.client.place⟩, hlt, h.taken_le, h.answered, ?_⟩
      intro _
      have hidle : pc = .attendClient ∧ s.received = s.replies.length := by
        unfold Sys.step at hserver
        rw [if_pos hfault] at hserver
        dsimp only [Sys.receive] at hserver
        rw [hpc] at hserver
        rcases hstands with ⟨hbetween, heq⟩ | ⟨c', -, -, hserves | ⟨-, rfl⟩⟩
        · cases pc with
          | attendClient => exact ⟨rfl, heq⟩
          | attendExecServ => cases hbetween
          | _ => cases hserver
        · cases pc with
          | attendExecServ | attendClient => cases hserves
          | _ => cases hserver
        · cases hserver
      obtain ⟨rfl, heq⟩ := hidle
      obtain ⟨server', hserver', hthread⟩ := receive_attendClient hfault hpc (buf.over c.wire) blank
      rw [hserver] at hserver'
      injection hserver' with hserver'
      subst hserver'
      refine ⟨_, hthread, .inr ⟨c, heq ▸ hc, congrArg (· + 1) heq, ?_⟩⟩
      have harrived : c.Arrived (buf.over c.wire) := ⟨buf, rfl⟩
      rcases h.client.message hc with hreq | rfl
      · exact .inl (receiveClient_serves hreq harrived _ _)
      · exact .inr ⟨rfl, receiveClient_closed harrived _ _⟩
  · cases hstep

omit [NeZero N] in
theorem repliesOf_run {env : Env} {wires : List (List UInt8)}
    (h : s.server.passes (.run s.conn env) = wires.map fun wire => (s.conn, wire)) :
    s.repliesOf (.run s.conn env) = wires := by
  rw [repliesOf, h]
  clear h
  induction wires with
  | nil => rfl
  | cons wire wires ih =>
      rw [List.map_cons, List.filter_cons_of_pos (by simp), List.map_cons, ih]

omit [NeZero N] in
theorem repliesOf_other {a : Action} (ha : ∀ env, a ≠ .run s.conn env) : s.repliesOf a = [] := by
  cases a with
  | run t env =>
      have hne : t ≠ s.conn := fun h => ha env (by rw [h])
      rw [repliesOf, Sys.passes]
      split
      · rw [List.filter_cons_of_neg (by simpa using hne)]
        rfl
      · rw [List.filter_cons_of_neg (by simpa using hne)]
        rfl
      · rw [List.filter_cons_of_neg (by simpa using hne)]
        rfl
      · cases s.server.heap.load _ with
        | none => rfl
        | some contents =>
            show List.map Prod.snd (List.filter _ [_]) = []
            rw [List.filter_cons_of_neg (by simpa using hne)]
            rfl
      · rfl
  | _ => rfl

/-- A step of another thread, or a wake-up, leaves the thread at its request. -/
theorem Matched.other {a : Action} (h : s.Matched) (hworks : s.Works a)
    (ha : ∀ env, a ≠ .run s.conn env) {server : Sys N} (hstep : s.server.step a = some server) :
    Matched { s with server := server } := by
  refine ⟨⟨h.client.calls, h.client.requests, h.client.place⟩, h.received_le, h.taken_le,
    h.answered, fun _ => ?_⟩
  obtain ⟨hfault, hcases⟩ := step_cases hstep
  obtain ⟨pc, hpc, hstands⟩ := h.thread hfault
  have hwake : s.Stands pc.wake := by
    rcases hstands with ⟨hbetween, heq⟩ | ⟨c, hc, heq, hserves | ⟨hclosed, rfl⟩⟩
    · exact .inl ⟨hbetween.wake, heq⟩
    · exact .inr ⟨c, hc, heq, .inl (by rw [hserves.wake]; exact hserves)⟩
    · exact .inr ⟨c, hc, heq, .inr ⟨hclosed, rfl⟩⟩
  rcases hcases.thread hpc with (hsame | hsame) | ⟨hmsg, -⟩ | ⟨env, r, rfl, -⟩
  · exact ⟨pc, hsame, hstands⟩
  · exact ⟨pc.wake, hsame, hwake⟩
  · cases a with
    | receive t m blank =>
        injection hmsg with hmsg
        exact absurd hmsg hworks
    | hangup t =>
        injection hmsg with hmsg
        exact absurd hmsg hworks
    | _ => cases hmsg
  · exact absurd rfl (ha env)

omit [NeZero N] in
/-- The next reply is to the next message. -/
theorem Matched.answered_snoc (h : s.Matched) {c : SetterCall}
    (hc : s.sent[s.replies.length]? = some c) {wire : List UInt8}
    (hans : Client.AnsweredBy wire c) {k : Nat} {wire' : List UInt8}
    (hk : (s.replies ++ [wire])[k]? = some wire') :
    ∃ c, s.sent[k]? = some c ∧ Client.AnsweredBy wire' c := by
  rcases Nat.lt_or_ge k s.replies.length with hlt | hge
  · rw [List.getElem?_append_left hlt] at hk
    exact h.answered k wire' hk
  · rw [List.getElem?_append_right hge] at hk
    obtain ⟨hlt, rfl⟩ := List.getElem?_eq_some_iff.mp hk
    have hlt' : k - s.replies.length < 1 := hlt
    obtain rfl : k = s.replies.length := by omega
    rw [List.getElem_singleton]
    exact ⟨c, hc, hans⟩

/-- What a step of the thread itself does to its request. -/
theorem Matched.own {env : Env} (h : s.Matched) {server : Sys N}
    (hstep : s.server.step (.run s.conn env) = some server) :
    Matched { s with
      server := server, replies := s.replies ++ s.repliesOf (.run s.conn env) } := by
  obtain ⟨pc, hpc, hstands⟩ := h.thread (step_cases hstep).1
  have hclient : AtClient { s with
      server := server, replies := s.replies ++ s.repliesOf (.run s.conn env) } :=
    ⟨h.client.calls, h.client.requests, h.client.place⟩
  have htaken : s.taken ≤ (s.replies ++ s.repliesOf (.run s.conn env)).length := by
    rw [List.length_append]
    exact Nat.le_add_right_of_le h.taken_le
  have hwake : ∀ pc : Pc N, pc.Between → pc.wake.Between := fun _ => Pc.Between.wake
  rcases hstands with ⟨hbetween, heq⟩ | ⟨c, hc, heq, hserves | ⟨-, rfl⟩⟩
  · obtain ⟨hpasses, hnext⟩ := @run_between _ _ _ _ _ env hpc hbetween
    have hnone : s.repliesOf (.run s.conn env) = [] := @repliesOf_run _ _ _ [] hpasses
    refine ⟨hclient, h.received_le, htaken, by rw [hnone, List.append_nil]; exact h.answered, ?_⟩
    intro hfault
    obtain ⟨pc', hpc', hbetween'⟩ := step_own hpc hstep hwake hnext hfault
    refine ⟨pc', hpc', .inl ⟨hbetween', ?_⟩⟩
    show s.received = (s.replies ++ s.repliesOf _).length
    rw [hnone, List.append_nil, heq]
  · rcases run_serves hpc hserves with ⟨hpasses, hnext⟩ | ⟨wire, hpasses, hans, hnext⟩
    · -- No reply yet: the thread goes on in the same handler.
      have hnone : s.repliesOf (.run s.conn env) = [] := repliesOf_run hpasses
      refine ⟨hclient, h.received_le, htaken, by rw [hnone, List.append_nil]; exact h.answered, ?_⟩
      intro hfault
      have hstay : ∀ pc : Pc N, pc.Serves c → pc.wake.Serves c := fun pc hpc => by
        rw [hpc.wake]
        exact hpc
      obtain ⟨pc', hpc', hserves'⟩ :=
        step_own hpc hstep hstay (fun r hrun => (hnext r hrun).1) hfault
      refine ⟨pc', hpc', .inr ⟨c, ?_, ?_, .inl hserves'⟩⟩
      · show s.sent[(s.replies ++ s.repliesOf _).length]? = some c
        rw [hnone, List.append_nil, hc]
      · show s.received = (s.replies ++ s.repliesOf _).length + 1
        rw [hnone, List.append_nil, heq]
    · -- This is the reply, and it is the one that was missing.
      have hone : s.repliesOf (.run s.conn env) = [wire] := repliesOf_run hpasses
      refine ⟨hclient, h.received_le, htaken, fun k wire' hk => ?_, fun hfault => ?_⟩
      · rw [hone] at hk
        exact h.answered_snoc hc hans hk
      · obtain ⟨pc', hpc', hbetween'⟩ := step_own hpc hstep hwake hnext hfault
        refine ⟨pc', hpc', .inl ⟨hbetween', ?_⟩⟩
        show s.received = (s.replies ++ s.repliesOf _).length
        rw [hone, List.length_append, heq]
        rfl
  · rcases step_run_eq hstep hpc with ⟨r, hrun, -⟩ | ⟨fault, hrun, -⟩
    · cases hrun
    · cases hrun

theorem Matched.server {a : Action} (h : s.Matched) (hworks : s.Works a) {server : Sys N}
    (hstep : s.server.step a = some server) :
    Matched { s with server := server, replies := s.replies ++ s.repliesOf a } := by
  by_cases ha : ∃ env, a = .run s.conn env
  · obtain ⟨env, rfl⟩ := ha
    exact h.own hstep
  · have hother : ∀ env, a ≠ .run s.conn env := fun env heq => ha ⟨env, heq⟩
    rw [repliesOf_other hother, List.append_nil]
    exact h.other hworks hother hstep

/-! ## Sessions -/

/-- The calls behind a `submit` go through, and the server does nothing
undefined. -/
def Ok (s : Session N) : SessionAction → Prop
  | .type command calls => calls.Ready command
  | .server a => s.server.Defined a
  | _ => True

instance (s : Session N) (a : SessionAction) : Decidable (s.Ok a) := by
  unfold Ok
  split <;> infer_instance

/-- A client connects to a server that has got anywhere by such steps. -/
def Starts (ok : Sys N → Action → Prop) (s : Session N) : Prop :=
  ∃ server, Reach Sys.step ok (· = Sys.init N) server ∧ server.fault = none ∧ s = connect server

omit [NeZero N] in
theorem defined_of_message {server : Sys N} {a : Action} (ha : server.running a = none) :
    server.Defined a := by
  refine ⟨?_, ?_, ?_, ?_, ?_⟩
  · unfold Sys.IndexOk
    rw [ha]
    exact fun pc hpc => by cases hpc
  · unfold Sys.RecordKept
    rw [ha]
    trivial
  · unfold Sys.RemovesInside
    rw [ha]
    trivial
  · unfold Sys.MarksFound
    rw [ha]
    trivial
  · unfold Sys.ReportsKnown
    rw [ha]
    trivial

theorem server_reach (h : Reach step Ok (Starts Sys.Defined) s) :
    Reach Sys.step Sys.Defined (· = Sys.init N) s.server := by
  refine h.invariant (I := fun s => Reach Sys.step Sys.Defined (· = Sys.init N) s.server) ?_ ?_
  · rintro s ⟨server, hr, hfault, rfl⟩
    refine .step hr (defined_of_message (a := .acceptClient) rfl) ?_
    unfold Sys.step
    exact if_pos hfault
  · intro s a s' _ hr hok hstep
    cases a with
    | type command calls =>
        dsimp only [step, Session.type] at hstep
        split at hstep
        · injection hstep with hstep; subst hstep
          exact hr
        · cases hstep
    | recvMsg =>
        dsimp only [step, Session.recvMsg] at hstep
        split at hstep
        · split at hstep
          · injection hstep with hstep; subst hstep
            exact hr
          · cases hstep
        · cases hstep
    | clientAccept =>
        dsimp only [step, Session.clientAccept] at hstep
        split at hstep
        · injection hstep with hstep; subst hstep
          exact hr
        · cases hstep
    | deliver buf blank =>
        dsimp only [step, Session.deliver] at hstep
        split at hstep
        · obtain ⟨server, hserver, rfl⟩ := Option.map_eq_some_iff.mp hstep
          exact .step hr (defined_of_message rfl) hserver
        · cases hstep
    | server a =>
        dsimp only [step] at hstep
        split at hstep
        · obtain ⟨server, hserver, rfl⟩ := Option.map_eq_some_iff.mp hstep
          exact .step hr hok hserver
        · cases hstep

theorem matched_of_reach (h : Reach step Ok (Starts Sys.Defined) s) : s.Matched := by
  refine h.invariant ?_ fun s a s' _ hm hok hstep => ?_
  · rintro s ⟨server, -, -, rfl⟩
    exact matched_connect server
  · cases a with
    | type command calls => exact hm.type hok hstep
    | recvMsg => exact hm.recvMsg hstep
    | clientAccept => exact hm.clientAccept hstep
    | deliver buf blank => exact hm.deliver hstep
    | server a =>
        dsimp only [step] at hstep
        split at hstep
        · next hworks =>
            obtain ⟨server, hserver, rfl⟩ := Option.map_eq_some_iff.mp hstep
            exact hm.server hworks hserver
        · cases hstep

/-- The thread is at the end of the `submit` before the request, with a job for
a queue that is full. -/
def WaitsForRoom (s : Session N) : Prop :=
  ∃ i job wait, s.server.threads[s.conn]? = some (.putJob .newJob i job wait) ∧
    (s.server.server.queue i).count = maxJobsQueue

/-- The end of the `submit` before, with room in the queue: the put is the
thread's next step, unless others that were let out of the wait come first, and
then there is one of these for every free slot. -/
def PutsNext (s : Session N) : Pc N → Prop
  | .putJob .newJob i _ .blocked =>
      (s.server.server.queue i).count < maxJobsQueue ∧
        maxJobsQueue - (s.server.server.queue i).count ≤ s.server.woken (.put i)
  | .putJob .newJob i _ _ =>
      (s.server.server.queue i).count < maxJobsQueue ∧
        ∀ env, env.ok = true → s.Ok (.server (.run s.conn env)) →
          ∃ s', s.step (.server (.run s.conn env)) = some s' ∧ s'.replies = s.replies ∧
            s'.server.threads[s'.conn]? = some .attendClient
  | _ => False

/-- What is left to do for the request that has no reply yet: the thread puts
the job of the `submit` before it, or it can receive the request, or it is a
step closer to the reply with each step of its own, none of which waits. -/
def Advances (s : Session N) : Prop :=
  ∃ pc, s.server.threads[s.conn]? = some pc ∧
    (s.PutsNext pc ∨
    (pc = .attendClient ∧ ∀ buf blank, ∃ s', s.step (.deliver buf blank) = some s' ∧
      ∃ pc', s'.server.threads[s'.conn]? = some pc' ∧ 0 < pc'.toReply) ∨
    (0 < pc.toReply ∧ ∀ env, env.ok = true → s.Ok (.server (.run s.conn env)) →
      ∃ s', s.step (.server (.run s.conn env)) = some s' ∧
        (s'.replies.length = s.replies.length + 1 ∨
          s'.replies = s.replies ∧ ∃ pc', s'.server.threads[s'.conn]? = some pc' ∧
            0 < pc'.toReply ∧ pc'.toReply < pc.toReply)))

/-- A thread that owes a reply can always run. -/
theorem run_of_toReply {pc : Pc N} (h : 0 < pc.toReply) (server : MainServer N) (heap : Heap)
    (t : Nat) (env : Env) : ∃ res, pc.run server heap t env = some res := by
  cases pc with
  | newJob | numberJob | submittedResponse | jobState | queueState | unsubmit | unsubmitQueue
  | removeJob | markUnsubmited | reply => exact ⟨_, rfl⟩
  | _ => cases h

/-- A section of the thread that a good step runs has a result. -/
theorem own_step_defined {pc : Pc N} (hr : Reach Sys.step Sys.Defined (· = Sys.init N) s.server)
    (hpc : s.server.threads[s.conn]? = some pc) {env : Env} {res : Except Fault (Result N)}
    (hres : pc.run s.server.server s.server.heap s.conn env = some res)
    (hok : s.server.Defined (.run s.conn env)) :
    ∃ r, pc.run s.server.server s.server.heap s.conn env = some (.ok r) ∧
      s.server.step (.run s.conn env) = some (s.server.commit s.conn env.pick r) := by
  have hfault := fault_none_of_reach hr
  have hstep : s.server.step (.run s.conn env) = s.server.run s.conn env := by
    unfold Sys.step
    exact if_pos hfault
  cases res with
  | ok r => exact ⟨r, hres, by rw [hstep]; simp only [Sys.run, hpc, hres]⟩
  | error fault =>
      have hbad : s.server.step (.run s.conn env) = some { s.server with fault := some fault } := by
        rw [hstep]
        simp only [Sys.run, hpc, hres]
      cases fault_none_of_reach (.step hr hok hbad)

/-- With room in the queue, a thread at its `putJob` that is not inside the wait
puts its job. -/
theorem putJob_puts (hr : Reach Sys.step Sys.Defined (· = Sys.init N) s.server) {i : Fin N}
    {job : Ptr} {wait : Wait}
    (hpc : s.server.threads[s.conn]? = some (.putJob .newJob i job wait)) (hwait : wait ≠ .blocked)
    (hroom : (s.server.server.queue i).count < maxJobsQueue) {env : Env} (henv : env.ok = true)
    (hok : s.Ok (.server (.run s.conn env))) :
    ∃ s', s.step (.server (.run s.conn env)) = some s' ∧ s'.replies = s.replies ∧
      s'.server.threads[s'.conn]? = some .attendClient := by
  obtain ⟨q, hput⟩ : ∃ q, (s.server.server.queue i).putJob job = some q :=
    Option.ne_none_iff_exists'.mp fun hnone => by
      rw [Queue.putJob_eq_none] at hnone
      omega
  have hrun : (Pc.putJob .newJob i job wait : Pc N).run s.server.server s.server.heap s.conn env =
      some (.ok (putJobSection s.server.server s.server.heap s.conn .newJob i job)) := by
    cases wait with
    | blocked => exact absurd rfl hwait
    | _ => rfl
  obtain ⟨r, hres, hstep⟩ := own_step_defined hr hpc hrun hok
  rw [hrun] at hres
  injection hres with hres
  injection hres with hres
  have hnext : r.pc = .attendClient := by
    rw [← hres, putJobSection, hput]
    rfl
  have hworks : s.Works (.run s.conn env) := fun _ => henv
  have hnone : s.repliesOf (.run s.conn env) = [] :=
    @repliesOf_run _ _ _ [] (@run_between _ _ _ _ _ env hpc trivial).1
  refine ⟨{ s with
    server := s.server.commit s.conn env.pick r
    replies := s.replies ++ s.repliesOf (.run s.conn env) }, ?_, ?_, ?_⟩
  · simp only [step, if_pos hworks, hstep, Option.map_some]
  · rw [hnone, List.append_nil]
  · rcases commit_self hpc env.pick r with hself | hself
    · rw [hnext] at hself
      exact hself
    · rw [hnext] at hself
      exact hself

/-- A thread at the `putJob` of a submission waits for room, or puts next. -/
theorem putsNext (hr : Reach Sys.step Sys.Defined (· = Sys.init N) s.server) {i : Fin N}
    {job : Ptr} {wait : Wait}
    (hpc : s.server.threads[s.conn]? = some (.putJob .newJob i job wait)) :
    s.WaitsForRoom ∨ s.PutsNext (.putJob .newJob i job wait) := by
  have hfresh : Reach Sys.step Sys.Defined Sys.Fresh s.server := (Reach.start fresh_init).trans hr
  obtain ⟨hbound, hawake⟩ := awake_of_reach hfresh
  by_cases hfull : (s.server.server.queue i).count = maxJobsQueue
  · exact .inl ⟨i, job, wait, hpc, hfull⟩
  have hroom : (s.server.server.queue i).count < maxJobsQueue :=
    Nat.lt_of_le_of_ne (hbound i) hfull
  right
  cases wait with
  | blocked =>
      refine ⟨hroom, hawake (.put i) ?_⟩
      have hle := le_tally (f := Pc.blockedAt (.put i)) hpc
      have hone : (Pc.putJob .newJob i job .blocked : Pc N).blockedAt (.put i) = 1 := if_pos rfl
      rw [hone] at hle
      exact Nat.one_le_iff_ne_zero.mp hle
  | ready => exact ⟨hroom, fun env henv hok => putJob_puts hr hpc (nofun) hroom henv hok⟩
  | woken => exact ⟨hroom, fun env henv hok => putJob_puts hr hpc (nofun) hroom henv hok⟩

theorem advances (h : Reach step Ok (Starts Sys.Defined) s)
    (howed : s.replies.length < s.calls.length) : s.WaitsForRoom ∨ s.Advances := by
  have hm := matched_of_reach h
  have hr := server_reach h
  have hfault := fault_none_of_reach hr
  obtain ⟨pc, hpc, hstands⟩ := hm.thread hfault
  obtain ⟨c, hc, hreq⟩ := hm.client.requests _ howed
  rcases hstands with ⟨hbetween, heq⟩ | ⟨c', hc', heq, hserves⟩
  · cases pc with
    | attendClient =>
        refine .inr ⟨_, hpc, .inr (.inl ⟨rfl, fun buf blank => ?_⟩)⟩
        have harrived : c.Arrived (buf.over c.wire) := ⟨buf, rfl⟩
        have hserves := receiveClient_serves (N := N) hreq harrived s.server.heap blank
        rw [← heq] at hc
        obtain ⟨server, hserver, hthread⟩ :=
          receive_attendClient hfault hpc (buf.over c.wire) blank
        refine ⟨{ s with server := server, received := s.received + 1 }, ?_, _, hthread,
          hserves.toReply_pos⟩
        simp only [step, Session.deliver, hc, hserver, Option.map_some]
    | putJob caller i job wait =>
        cases caller with
        | newJob => exact (putsNext hr hpc).imp_right fun hputs => ⟨_, hpc, .inl hputs⟩
        | putJobBack queueIdx => cases hbetween
    | _ => cases hbetween
  · rw [hc] at hc'
    injection hc' with hc'
    subst hc'
    rcases hserves with hserves | ⟨rfl, -⟩
    · refine .inr ⟨pc, hpc, .inr (.inr ⟨hserves.toReply_pos, fun env henv hok => ?_⟩)⟩
      obtain ⟨res, hres⟩ :=
        run_of_toReply hserves.toReply_pos s.server.server s.server.heap s.conn env
      obtain ⟨r, hrun, hstep⟩ := own_step_defined hr hpc hres hok
      have hworks : s.Works (.run s.conn env) := fun _ => henv
      refine ⟨{ s with
        server := s.server.commit s.conn env.pick r
        replies := s.replies ++ s.repliesOf (.run s.conn env) }, ?_, ?_⟩
      · simp only [step, if_pos hworks, hstep, Option.map_some]
      · rcases run_serves hpc hserves with ⟨hpasses, hnext⟩ | ⟨wire, hpasses, -, -⟩
        · have hnone : s.repliesOf (.run s.conn env) = [] := repliesOf_run hpasses
          obtain ⟨hserves', hlt⟩ := hnext r hrun
          refine .inr ⟨by rw [hnone, List.append_nil], r.pc, ?_, hserves'.toReply_pos, hlt⟩
          rcases commit_self hpc env.pick r with hself | hself
          · exact hself
          · rw [hserves'.wake] at hself
            exact hself
        · have hone : s.repliesOf (.run s.conn env) = [wire] := repliesOf_run hpasses
          refine .inl ?_
          rw [hone, List.length_append]
          rfl
    · cases hreq

end Server

end Session

end DistQueue
