import DistQueue.Exec.Compatible
import DistQueue.Server.Serving

/-!
# The cluster

The main server, its clients, and the exec servers that have connected to it.
The clients can send anything at any time. An exec server is at the other end of
the connection of one thread of the main server, and the two are as in
`Exec/Handshake`, call by call.

The main server is there twice: as the critical sections of `Server/System`,
where a whole `checkServerStatus` is one step, and as the handler of each
connection, where it is many. A step of a handler that ends what is one step in
the other model is that step, too.
-/

namespace DistQueue

open DistQueue.Lib

/-- An exec server that has connected: its thread in the main server, and the
two ends of the connection. -/
structure Link where
  thread : Nat
  conn : Handshake.Conn

structure Cluster (N : Nat) where
  server : Sys N
  links : List Link

def Cluster.init (N : Nat) : Cluster N := ⟨Sys.init N, []⟩

inductive ClusterAction
  /-- An exec server connects; `stack` is what the handler's buffer holds. -/
  | connect (stack : Msg)
  /-- The main server does anything but a call on such a connection. -/
  | server (a : Action)
  /-- The handler of a link makes its next call. -/
  | handler (i : Nat) (call : Handshake.Env) (env : Env)
  /-- The exec server of a link makes a step. -/
  | exec (i : Nat) (call : Handshake.Env)

section Calls

variable {N : Nat}

/-- The thread is at a call on the connection of an exec server. -/
def Pc.onWire : Pc N → Bool
  | .attendExecServ | .checkServerStatus _ | .sendMsg _ => true
  | _ => false

/-- `job` is the one a thread has that finds out whether its exec server is
still there. -/
def Pc.Has (heap : Heap) (job : Job) : Pc N → Prop
  | .checkServerStatus p => heap.contents p = some job
  | _ => True

instance (heap : Heap) (job : Job) : (pc : Pc N) → Decidable (pc.Has heap job)
  | .checkServerStatus p => inferInstanceAs (Decidable (heap.contents p = some job))
  | .attendClient | .attendExecServ | .closed | .newJob .. | .numberJob ..
  | .submittedResponse .. | .putJob .. | .jobState _ | .queueState _ | .unsubmit _
  | .unsubmitQueue .. | .removeJob .. | .markUnsubmited .. | .reply _ | .sendJob
  | .getJob .. | .sendMsg _ | .putJobBack _ | .relabel .. | .changeStateJob .. => isTrue trivial

/-- What has nothing to do with the connection of an exec server. -/
def Sys.Own (s : Sys N) : Action → Prop
  | .acceptClient | .wakeup _ => True
  | .acceptExecServ => False
  | .receive t _ _ | .hangup t => s.threads[t]? = some .attendClient
  | .run t _ => ∀ pc ∈ s.threads[t]?, pc.onWire = false

instance (s : Sys N) : (a : Action) → Decidable (s.Own a)
  | .acceptClient | .wakeup _ => isTrue trivial
  | .acceptExecServ => isFalse id
  | .receive t _ _ | .hangup t => inferInstanceAs (Decidable (s.threads[t]? = some .attendClient))
  | .run t _ => inferInstanceAs (Decidable (∀ pc ∈ s.threads[t]?, pc.onWire = false))

/-- A whole `checkServerStatus` or `sendMsg` that a call has ended, by where the
handler stood before it and stands behind it. -/
def Handshake.MainPc.returned : MainPc → MainPc → Option Bool
  | .recvAck _ _, .sendJob _ _ _ | .sendJob _ _ _, .attendExecServ _ => some true
  | .checkServerStatus _ _ _, .closed | .select _ _, .closed | .recvAck _ _, .closed
  | .sendJob _ _ _, .closed => some false
  | _, _ => none

/-- The step of the handler's thread that is over with a call, `conn` being the
connection behind it. -/
def Link.act (link : Link) (call : Handshake.Env) (env : Env) (conn : Handshake.Conn) :
    Option Action :=
  match link.conn.main with
  | .attendExecServ st =>
      match recvLoop [call.result] link.conn.toMain st with
      | .blocked _ _ => none
      | .ret code pkg _ =>
          some (if code = 1 then .receive link.thread pkg Action.blankJob else .hangup link.thread)
      | .overflow => some (.hangup link.thread)
  | main => (main.returned conn.main).map fun ok => .run link.thread { env with ok := ok }

end Calls

namespace Cluster

variable {N : Nat} [NeZero N] (s : Cluster N)

/-- The link a handler's call leaves, and the step of its thread. -/
def called (i : Nat) (call : Handshake.Env) (env : Env) : Option (Link × Option Action) :=
  match s.links[i]? with
  | none => none
  | some link =>
      match s.server.threads[link.thread]? with
      | none => none
      | some pc =>
          if pc.onWire = true ∧ pc.Has s.server.heap call.job then
            (link.conn.mainStep call).map fun conn =>
              ({ link with conn := conn }, link.act call env conn)
          else none

/-- The step of the main server in a step of the cluster. -/
def serverAction : ClusterAction → Option Action
  | .connect _ => some .acceptExecServ
  | .server a => some a
  | .handler i call env => (s.called i call env).bind Prod.snd
  | .exec _ _ => none

/-- A section without a defined result leaves the connections as they are. -/
def handlerStep (i : Nat) (call : Handshake.Env) (env : Env) : Option (Cluster N) :=
  match s.called i call env with
  | none => none
  | some (link, none) => some { s with links := s.links.set i link }
  | some (link, some a) =>
      (s.server.step a).map fun server =>
        if server.fault = none then ⟨server, s.links.set i link⟩ else ⟨server, s.links⟩

def execStep (i : Nat) (call : Handshake.Env) : Option (Cluster N) :=
  match s.links[i]? with
  | none => none
  | some link =>
      (link.conn.execStep call).map fun conn =>
        { s with links := s.links.set i { link with conn := conn } }

def connectStep (stack : Msg) : Option (Cluster N) :=
  (s.server.step .acceptExecServ).map fun server =>
    ⟨server, s.links ++ [⟨s.server.threads.length, .init stack⟩]⟩

/-- One step; none is taken behind a fault. -/
def step (a : ClusterAction) : Option (Cluster N) :=
  if s.server.fault = none then
    match a with
    | .connect stack => s.connectStep stack
    | .server a =>
        if s.server.Own a then (s.server.step a).map fun server => { s with server := server }
        else none
    | .handler i call env => s.handlerStep i call env
    | .exec i call => s.execStep i call
  else none

/-- No call on a connection is interrupted, and behind a failed one those of
the exec server fail too. -/
def Regular (s : Cluster N) : ClusterAction → Prop
  | .handler _ call _ => call.result ≠ .eintr
  | .exec i call => ∀ link ∈ s.links[i]?, Handshake.Regular link.conn (.exec call)
  | _ => True

instance (s : Cluster N) : (a : ClusterAction) → Decidable (s.Regular a)
  | .handler _ call _ => inferInstanceAs (Decidable (call.result ≠ .eintr))
  | .exec i call =>
      inferInstanceAs (Decidable (∀ link ∈ s.links[i]?, Handshake.Regular link.conn (.exec call)))
  | .connect _ | .server _ => isTrue trivial

/-- The main server's part in the step is as `ok` says. -/
def Serves (ok : Sys N → Action → Prop) (s : Cluster N) (a : ClusterAction) : Prop :=
  ∀ sa ∈ s.serverAction a, ok s.server sa

instance (ok : Sys N → Action → Prop) [∀ s a, Decidable (ok s a)] (s : Cluster N)
    (a : ClusterAction) : Decidable (s.Serves ok a) :=
  inferInstanceAs (Decidable (∀ sa ∈ _, _))

/-- Regular, and no section of the main server touches memory that is not
there. -/
def Safe (s : Cluster N) (a : ClusterAction) : Prop := s.Regular a ∧ s.Serves Sys.InBounds a

instance (s : Cluster N) (a : ClusterAction) : Decidable (s.Safe a) :=
  inferInstanceAs (Decidable (_ ∧ _))

theorem regular_of_safe {init : Cluster N → Prop} {s : Cluster N}
    (h : Reach step Safe init s) : Reach step Regular init s :=
  h.mono fun _ _ h => h.1

end Cluster

end DistQueue
