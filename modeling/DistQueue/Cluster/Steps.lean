import DistQueue.Cluster.System
import DistQueue.Exec.Speech
import DistQueue.Server.NoLoss

/-!
# What one step of the cluster can do

`ClusterStep` lists the ways a step goes, and is read off the definition once.
From it follow the two halves of the cluster as systems of their own: the main
server has gone through a run of `Sys`, and every connection through a run of
`Handshake.Conn`.
-/

namespace DistQueue

open DistQueue.Lib

variable {N : Nat} [NeZero N]

/-- The handler of link `i` makes a call: `link` before it, `conn` behind it. -/
structure Cluster.Calls (s : Cluster N) (i : Nat) (call : Handshake.Env) (link : Link) (pc : Pc N)
    (conn : Handshake.Conn) : Prop where
  found : s.links[i]? = some link
  thread : s.server.threads[link.thread]? = some pc
  onWire : pc.onWire = true
  has : pc.Has s.server.heap call.job
  step : link.conn.mainStep call = some conn

inductive ClusterStep (s : Cluster N) : ClusterAction → Cluster N → Prop
  | connect {stack : Msg} {server : Sys N} (h : s.server.step .acceptExecServ = some server) :
      ClusterStep s (.connect stack)
        ⟨server, s.links ++ [⟨s.server.threads.length, .init stack⟩]⟩
  | server {a : Action} {server : Sys N} (hown : s.server.Own a)
      (h : s.server.step a = some server) :
      ClusterStep s (.server a) ⟨server, s.links⟩
  /-- The call is not the last one of what the handler is at. -/
  | goesOn {i : Nat} {call : Handshake.Env} {env : Env} {link : Link} {pc : Pc N}
      {conn : Handshake.Conn} (hcalls : s.Calls i call link pc conn)
      (hact : link.act call env conn = none) :
      ClusterStep s (.handler i call env) ⟨s.server, s.links.set i ⟨link.thread, conn⟩⟩
  | ends {i : Nat} {call : Handshake.Env} {env : Env} {link : Link} {pc : Pc N}
      {conn : Handshake.Conn} {a : Action} {server : Sys N} (hcalls : s.Calls i call link pc conn)
      (hact : link.act call env conn = some a) (h : s.server.step a = some server)
      (hfault : server.fault = none) :
      ClusterStep s (.handler i call env) ⟨server, s.links.set i ⟨link.thread, conn⟩⟩
  | faulted {i : Nat} {call : Handshake.Env} {env : Env} {link : Link} {pc : Pc N}
      {conn : Handshake.Conn} {a : Action} {server : Sys N} (hcalls : s.Calls i call link pc conn)
      (hact : link.act call env conn = some a) (h : s.server.step a = some server)
      (hfault : server.fault ≠ none) :
      ClusterStep s (.handler i call env) ⟨server, s.links⟩
  | exec {i : Nat} {call : Handshake.Env} {link : Link} {conn : Handshake.Conn}
      (hlink : s.links[i]? = some link) (h : link.conn.execStep call = some conn) :
      ClusterStep s (.exec i call) ⟨s.server, s.links.set i ⟨link.thread, conn⟩⟩

omit [NeZero N] in
theorem called_calls {s : Cluster N} {i : Nat} {call : Handshake.Env} {env : Env} {link' : Link}
    {act : Option Action} (h : s.called i call env = some (link', act)) :
    ∃ link pc conn, s.Calls i call link pc conn ∧ link' = ⟨link.thread, conn⟩ ∧
      act = link.act call env conn := by
  unfold Cluster.called at h
  split at h
  · cases h
  next link hlink =>
  split at h
  · cases h
  next pc hpc =>
  split at h
  · next hcalls =>
      obtain ⟨conn, hstep, h⟩ := Option.map_eq_some_iff.mp h
      injection h with hlink' hact
      exact ⟨link, pc, conn, ⟨hlink, hpc, hcalls.1, hcalls.2, hstep⟩, hlink'.symm, hact.symm⟩
  · cases h

/-- `ClusterStep` is what `Cluster.step` computes. -/
theorem cluster_step_cases {s s' : Cluster N} {a : ClusterAction} (h : s.step a = some s') :
    s.server.fault = none ∧ ClusterStep s a s' := by
  unfold Cluster.step at h
  split at h
  case isFalse => cases h
  next hfault =>
  refine ⟨hfault, ?_⟩
  cases a with
  | connect stack =>
      obtain ⟨server, hstep, rfl⟩ := Option.map_eq_some_iff.mp h
      exact .connect hstep
  | server a =>
      dsimp only at h
      split at h
      · next hown =>
          obtain ⟨server, hstep, rfl⟩ := Option.map_eq_some_iff.mp h
          exact .server hown hstep
      · cases h
  | handler i call env =>
      dsimp only [Cluster.handlerStep] at h
      split at h
      · cases h
      · next link' hcalled =>
          obtain ⟨link, pc, conn, hcalls, rfl, hact⟩ := called_calls hcalled
          injection h with h
          subst h
          exact .goesOn hcalls hact.symm
      · next link' sa hcalled =>
          obtain ⟨link, pc, conn, hcalls, rfl, hact⟩ := called_calls hcalled
          obtain ⟨server, hstep, rfl⟩ := Option.map_eq_some_iff.mp h
          split
          · next hok => exact .ends hcalls hact.symm hstep hok
          · next hbad => exact .faulted hcalls hact.symm hstep hbad
  | exec i call =>
      dsimp only [Cluster.execStep] at h
      split at h
      · cases h
      · next link hlink =>
          obtain ⟨conn, hstep, rfl⟩ := Option.map_eq_some_iff.mp h
          exact .exec hlink hstep

omit [NeZero N] in
theorem Cluster.Calls.called {s : Cluster N} {i : Nat} {call : Handshake.Env} {link : Link}
    {pc : Pc N} {conn : Handshake.Conn} (h : s.Calls i call link pc conn) (env : Env) :
    s.called i call env = some (⟨link.thread, conn⟩, link.act call env conn) := by
  simp only [Cluster.called, h.found, h.thread, if_pos (And.intro h.onWire h.has), h.step,
    Option.map_some]

/-! ## The main server in the cluster -/

omit [NeZero N] in
theorem serverAction_handler {s : Cluster N} {i : Nat} {call : Handshake.Env} {env : Env}
    {link : Link} {pc : Pc N} {conn : Handshake.Conn} (h : s.Calls i call link pc conn) :
    s.serverAction (.handler i call env) = link.act call env conn := by
  rw [Cluster.serverAction, h.called]
  rfl

/-- The main server makes the step that is its part, or rests. -/
theorem cluster_step_server {s s' : Cluster N} {a : ClusterAction} (h : s.step a = some s') :
    (s.serverAction a = none ∧ s'.server = s.server) ∨
      ∃ sa, s.serverAction a = some sa ∧ s.server.step sa = some s'.server := by
  cases (cluster_step_cases h).2 with
  | connect hserver => exact .inr ⟨_, rfl, hserver⟩
  | server _ hserver => exact .inr ⟨_, rfl, hserver⟩
  | goesOn hcalls hact => exact .inl ⟨(serverAction_handler hcalls).trans hact, rfl⟩
  | ends hcalls hact hserver _ | faulted hcalls hact hserver _ =>
      exact .inr ⟨_, (serverAction_handler hcalls).trans hact, hserver⟩
  | exec => exact .inl ⟨rfl, rfl⟩

/-- Seen from its main server, a run of the cluster is one of `Sys`. -/
theorem server_of_reach {ok : Cluster N → ClusterAction → Prop} {ok' : Sys N → Action → Prop}
    {s : Cluster N} (hle : ∀ s a, ok s a → s.Serves ok' a)
    (h : Reach Cluster.step ok (· = .init N) s) : Reach Sys.step ok' (· = .init N) s.server := by
  refine h.project (fun s hs => congrArg Cluster.server hs) fun s a s' _ hok hs => ?_
  rcases cluster_step_server hs with ⟨-, hrest⟩ | ⟨sa, hsa, hstep⟩
  · exact .inl hrest
  · exact .inr ⟨sa, hle s a hok sa hsa, hstep⟩

/-! ## The connections in the cluster -/

theorem mem_set {α : Type*} {l : List α} {i : Nat} {x y : α} (h : y ∈ l.set i x) :
    y = x ∨ y ∈ l := by
  obtain ⟨j, hj⟩ := List.mem_iff_getElem?.mp h
  rcases getElem?_set_cases hj with ⟨-, rfl⟩ | ⟨-, hj⟩
  · exact .inl rfl
  · exact .inr (List.mem_of_getElem? hj)

def Cluster.Connected (s : Cluster N) : Prop :=
  ∀ link ∈ s.links, Reach Handshake.Conn.step Handshake.Regular Handshake.Fresh link.conn

theorem Cluster.Connected.step {s s' : Cluster N} {a : ClusterAction} (hc : s.Connected)
    (hok : s.Regular a) (h : s.step a = some s') : s'.Connected := by
  have hset : ∀ i link conn, s.links[i]? = some link → ∀ act, Handshake.Regular link.conn act →
      link.conn.step act = some conn → ∀ link' ∈ s.links.set i ⟨link.thread, conn⟩,
        Reach Handshake.Conn.step Handshake.Regular Handshake.Fresh link'.conn := by
    intro i link conn hlink act hact hstep link' hlink'
    rcases mem_set hlink' with rfl | hlink'
    · exact .step (hc link (List.mem_of_getElem? hlink)) hact hstep
    · exact hc link' hlink'
  cases (cluster_step_cases h).2 with
  | @connect stack =>
      intro link hlink
      rcases List.mem_append.mp hlink with hlink | hlink
      · exact hc link hlink
      · obtain rfl := List.mem_singleton.mp hlink
        exact .start ⟨stack, rfl⟩
  | server | faulted => exact hc
  | @goesOn i call env link pc conn hcalls | @ends i call env link pc conn _ _ hcalls =>
      exact hset i link conn hcalls.found (.main call) hok hcalls.step
  | @exec i call link conn hlink hexec =>
      exact hset i link conn hlink (.exec call) (hok link hlink) hexec

/-- Each connection is in a state of a run of its own. -/
theorem connected_of_reach {ok : Cluster N → ClusterAction → Prop} {s : Cluster N}
    (hle : ∀ s a, ok s a → s.Regular a) (h : Reach Cluster.step ok (· = .init N) s) :
    s.Connected :=
  h.invariant (fun _ hs => hs ▸ fun _ hlink => by cases hlink)
    fun s a _ _ hc hok hs => hc.step (hle s a hok) hs

end DistQueue
