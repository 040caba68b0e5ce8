import DistQueue.Exec.Handshake
import DistQueue.Server.Delivery

/-!
# The phases of a connection

Seen from the messages, a connection is always in one of nine phases, by who
has to speak next and what is on its way. The exec server speaks, with reports,
until it has asked for a job; then the handler does, with a check; then the exec
server answers, and a job follows. Nobody takes a message before its last byte
has been put in, so whoever still writes keeps the other one waiting.
-/

namespace DistQueue.Handshake

open DistQueue.Lib

/-! ## Phases -/

/-- What the exec server is about, on the connection. -/
inductive Turn
  | working
  | asking
  | waiting
  | acking
  | leaving
  | gone
  deriving DecidableEq

def Sends.turn : Sends → Turn
  | .jobRequest => .asking
  | .closeConnecMain => .leaving
  | .sendAck => .acking
  | .runMsg _ | .doneMsg => .working

def ExecPc.turn : ExecPc → Turn
  | .command | .execJob _ | .wait _ => .working
  | .sendMsg what _ _ => what.turn
  | .execServerProtocol _ => .waiting
  | .closed => .gone

/-- It takes what comes, or nothing any more. -/
def Turn.Listens (turn : Turn) : Prop := turn = .waiting ∨ turn = .gone

/-- It is at `mark`, none of its calls having failed, or waits behind it. -/
def Turn.Passes (turn : Turn) (failed : Bool) (mark : Turn) : Prop :=
  (turn = mark ∧ failed = false) ∨ turn.Listens

def MainPc.Awaits : MainPc → Prop
  | .select _ _ | .recvAck _ _ => True
  | _ => False

def MainPc.Checks : MainPc → Prop
  | .checkServerStatus _ _ _ => True
  | pc => pc.Awaits

def IsReport : SetterCall → Prop
  | .jobRun _ | .jobDone _ _ | .jobSignaled _ _ => True
  | _ => False

/-- With the handler gone, what the exec server may still take. -/
inductive Left (turn : Turn) (pend : List UInt8) : List SetterCall → Option SendJob → Prop
  | nothing : Left turn pend [] none
  | check : turn.Listens → Left turn pend [.checkExecServer] none
  | cut {job : Job} : turn.Listens → pend ≠ [] → Left turn pend [job.call] none
  | job {call : SendJob} : turn.Listens → Left turn pend [call.job.call] (some call)

/-- `up` and `down` are the messages on their way to the handler and to the exec
server, the one still being written included; `pend` is what the handler has
not put in yet. `debt` is the call of `sendJob` whose job has been put in and
not taken. -/
inductive Phase (failed : Bool) : MainPc → Turn → List SetterCall → List SetterCall →
    List UInt8 → Option SendJob → Prop
  | idle {st turn up pend} : (∀ c ∈ up, IsReport c) →
      turn = .working ∨ turn = .gone ∨ failed = true →
      Phase failed (.attendExecServ st) turn up [] pend none
  | asked {st turn up pend} : (∀ c ∈ up, IsReport c) → turn.Passes failed .asking →
      Phase failed (.attendExecServ st) turn (up ++ [.jobReq]) [] pend none
  | leaving {st turn up pend} : (∀ c ∈ up, IsReport c) → turn = .leaving ∨ turn = .gone →
      Phase failed (.attendExecServ st) turn (up ++ [.closedConnectionExecServer]) [] pend none
  | taking {turn pend} : turn.Listens → Phase failed .getJob turn [] [] pend none
  | checking {main turn pend} : MainPc.Checks main → turn.Listens →
      Phase failed main turn [] [.checkExecServer] pend none
  | acked {main turn pend} : MainPc.Awaits main → turn.Passes failed .acking →
      Phase failed main turn [.checkExecServerAck] [] pend none
  | sending {job pkg st turn pend} : turn.Listens →
      Phase failed (.sendJob job pkg st) turn [] [job.call] pend none
  | carried {st turn pend call} : turn.Listens →
      Phase failed (.attendExecServ st) turn [] [call.job.call] pend (some call)
  | ended {turn up down pend debt} : Left turn pend down debt →
      Phase failed .closed turn up down pend debt

/-! ## The ends of the two streams -/

/-- `got` is what the handler has of a message that is coming. -/
def MainPc.Reads (up : List SetterCall) (got : List UInt8) : MainPc → Prop
  | .attendExecServ st | .recvAck _ st => ReadsAt up got st
  | .closed => True
  | _ => got = []

/-- `pend` is what it has still to put in. -/
def MainPc.Writes (pend : List UInt8) : MainPc → Prop
  | .checkServerStatus _ pkg st | .sendJob _ pkg st => WritesAt pend pkg st
  | .closed => True
  | _ => pend = []

def ExecPc.Reads (down : List SetterCall) (got : List UInt8) : ExecPc → Prop
  | .execServerProtocol st => ReadsAt down got st
  | .closed => True
  | _ => got = []

/-- Behind a failed call there may be the rest of a message that will not be
sent any more. -/
def ExecPc.Writes (failed : Bool) (pend : List UInt8) : ExecPc → Prop
  | .sendMsg _ pkg st => failed = true ∨ WritesAt pend pkg st
  | .closed => True
  | _ => failed = true ∨ pend = []

/-! ## From phase to phase -/

section Phases

variable {failed : Bool} {main : MainPc} {turn : Turn} {up down : List SetterCall}
  {pend : List UInt8} {debt : Option SendJob} {c : SetterCall}

theorem Turn.Listens.not_working (h : Turn.working.Listens) : False := by
  rcases h with h | h <;> cases h

theorem Turn.listens_gone : Turn.gone.Listens := .inr rfl

/-- An exec server that works on something has been given nothing else. -/
theorem Phase.working (h : Phase failed main .working up down pend debt) :
    down = [] ∧ debt = none ∧
      (main = .closed ∨ ∃ st, main = .attendExecServ st ∧ ∀ c ∈ up, IsReport c) := by
  cases h with
  | idle hup _ => exact ⟨rfl, rfl, .inr ⟨_, rfl, hup⟩⟩
  | asked _ hturn =>
      rcases hturn with ⟨h, -⟩ | h
      · cases h
      · exact h.not_working.elim
  | leaving _ hturn => rcases hturn with h | h <;> cases h
  | taking hturn => exact hturn.not_working.elim
  | checking _ hturn => exact hturn.not_working.elim
  | acked _ hturn =>
      rcases hturn with ⟨h, -⟩ | h
      · cases h
      · exact h.not_working.elim
  | sending hturn => exact hturn.not_working.elim
  | carried hturn => exact hturn.not_working.elim
  | ended hleft =>
      cases hleft with
      | nothing => exact ⟨rfl, rfl, .inl rfl⟩
      | check hturn => exact hturn.not_working.elim
      | cut hturn _ => exact hturn.not_working.elim
      | job hturn => exact hturn.not_working.elim

/-- The exec server may go at any time. -/
theorem Phase.gone (h : Phase failed main turn up down pend debt) (failed' : Bool) :
    Phase failed' main .gone up down pend debt := by
  cases h with
  | idle hup _ => exact .idle hup (.inr (.inl rfl))
  | asked hup _ => exact .asked hup (.inr Turn.listens_gone)
  | leaving hup _ => exact .leaving hup (.inr rfl)
  | taking _ => exact .taking Turn.listens_gone
  | checking hmain _ => exact .checking hmain Turn.listens_gone
  | acked hmain _ => exact .acked hmain (.inr Turn.listens_gone)
  | sending _ => exact .sending Turn.listens_gone
  | carried _ => exact .carried Turn.listens_gone
  | ended hleft =>
      refine .ended ?_
      cases hleft with
      | nothing => exact .nothing
      | check _ => exact .check Turn.listens_gone
      | cut _ hpend => exact .cut Turn.listens_gone hpend
      | job _ => exact .job Turn.listens_gone

/-- So may the handler, but a job it has begun to send is cut then. -/
theorem Phase.close (h : Phase failed main turn up down pend debt) (hmain : main.Writes pend) :
    Phase failed .closed turn up down pend debt := by
  cases h with
  | idle _ _ | asked _ _ | leaving _ _ | taking _ | acked _ _ => exact .ended .nothing
  | checking _ hturn => exact .ended (.check hturn)
  | sending hturn => exact .ended (.cut hturn (WritesAt.ne_nil hmain))
  | carried hturn => exact .ended (.job hturn)
  | ended hleft => exact .ended hleft

/-- A message that asks for an answer has been put in. -/
theorem Phase.wait (h : Phase false main turn up down pend debt)
    (hturn : turn = .asking ∨ turn = .acking) : Phase false main .waiting up down pend debt := by
  have hlistens : Turn.waiting.Listens := .inl rfl
  cases h with
  | idle _ hidle => rcases hturn with rfl | rfl <;> rcases hidle with h | h | h <;> cases h
  | asked hup _ => exact .asked hup (.inr hlistens)
  | leaving _ hleave => rcases hturn with rfl | rfl <;> rcases hleave with h | h <;> cases h
  | taking _ => exact .taking hlistens
  | checking hmain _ => exact .checking hmain hlistens
  | acked hmain _ => exact .acked hmain (.inr hlistens)
  | sending _ => exact .sending hlistens
  | carried _ => exact .carried hlistens
  | ended hleft =>
      refine .ended ?_
      cases hleft with
      | nothing => exact .nothing
      | check _ => exact .check hlistens
      | cut _ hpend => exact .cut hlistens hpend
      | job _ => exact .job hlistens

/-- What the exec server begins to write while it works. -/
theorem Phase.speak (h : Phase false main .working up down pend debt) {next : Turn}
    (hnext : next = .asking ∧ c = .jobReq ∨ next = .leaving ∧ c = .closedConnectionExecServer ∨
      next = .working ∧ IsReport c) :
    Phase false main next (up ++ [c]) down pend debt := by
  obtain ⟨rfl, rfl, rfl | ⟨st, rfl, hup⟩⟩ := h.working
  · exact .ended .nothing
  · rcases hnext with ⟨rfl, rfl⟩ | ⟨rfl, rfl⟩ | ⟨rfl, hc⟩
    · exact .asked hup (.inl ⟨rfl, rfl⟩)
    · exact .leaving hup (.inl rfl)
    · refine .idle ?_ (.inl rfl)
      intro c' hc'
      rcases List.mem_append.mp hc' with hc' | hc'
      · exact hup c' hc'
      · rw [List.mem_singleton.mp hc']
        exact hc

/-- Behind a failed call it goes on without being heard. -/
theorem Phase.mute (h : Phase failed main .working up down pend debt) (next : Turn) :
    Phase true main next up down pend debt := by
  obtain ⟨rfl, rfl, rfl | ⟨st, rfl, hup⟩⟩ := h.working
  · exact .ended .nothing
  · exact .idle hup (.inr (.inr rfl))

/-- A message the exec server has taken: it was a check, which it answers, or a
job whose `sendJob` is through. -/
theorem Phase.take {down' : List SetterCall}
    (h : Phase false main .waiting up (c :: down') pend debt) (hmain : main.Writes pend)
    (hpend : down' = [] → pend = []) :
    down' = [] ∧
      (c = .checkExecServer ∧ debt = none ∧
          Phase false main .acking (up ++ [.checkExecServerAck]) [] pend none ∨
        ∃ call, debt = some call ∧ c = call.job.call ∧
          Phase false main .working up [] pend none) := by
  cases h with
  | checking hchecks _ =>
      refine ⟨rfl, .inl ⟨rfl, rfl, .acked ?_ (.inl ⟨rfl, rfl⟩)⟩⟩
      cases main with
      | checkServerStatus job pkg st => exact absurd (hpend rfl) (WritesAt.ne_nil hmain)
      | select job pkg => trivial
      | recvAck job st => trivial
      | attendExecServ st => exact hchecks.elim
      | getJob => exact hchecks.elim
      | sendJob job pkg st => exact hchecks.elim
      | closed => exact hchecks.elim
  | sending _ => exact absurd (hpend rfl) (WritesAt.ne_nil hmain)
  | carried _ => exact ⟨rfl, .inr ⟨_, rfl, rfl, .idle (by simp) (.inl rfl)⟩⟩
  | ended hleft =>
      cases hleft with
      | check _ => exact ⟨rfl, .inl ⟨rfl, rfl, .ended .nothing⟩⟩
      | cut _ hcut => exact absurd (hpend rfl) hcut
      | job _ => exact ⟨rfl, .inr ⟨_, rfl, rfl, .ended .nothing⟩⟩

/-- A message `attendExecServ` has taken. -/
theorem Phase.hear {st : RecvSt} {up' : List SetterCall}
    (h : Phase failed (.attendExecServ st) turn (c :: up') down pend debt) :
    IsReport c ∧ (∀ st', Phase failed (.attendExecServ st') turn up' down pend debt) ∨
      c = .jobReq ∧ up' = [] ∧ down = [] ∧ debt = none ∧ turn.Passes failed .asking ∨
      c = .closedConnectionExecServer ∧ Phase failed .closed turn up' down pend debt := by
  generalize hall : c :: up' = all at h
  cases h with
  | idle hup hturn =>
      subst hall
      exact .inl ⟨hup c (by simp), fun _ => .idle (fun c' hc' => hup c' (by simp [hc'])) hturn⟩
  | @asked _ _ reps _ hup hturn =>
      cases reps with
      | nil =>
          obtain ⟨rfl, rfl⟩ := List.cons.inj hall
          exact .inr (.inl ⟨rfl, rfl, rfl, rfl, hturn⟩)
      | cons rep reps =>
          obtain ⟨rfl, rfl⟩ := List.cons.inj hall
          exact .inl ⟨hup c (by simp), fun _ =>
            .asked (fun c' hc' => hup c' (by simp [hc'])) hturn⟩
  | @leaving _ _ reps _ hup hturn =>
      cases reps with
      | nil =>
          obtain ⟨rfl, rfl⟩ := List.cons.inj hall
          exact .inr (.inr ⟨rfl, .ended .nothing⟩)
      | cons rep reps =>
          obtain ⟨rfl, rfl⟩ := List.cons.inj hall
          exact .inl ⟨hup c (by simp), fun _ =>
            .leaving (fun c' hc' => hup c' (by simp [hc'])) hturn⟩
  | carried _ => cases hall
  | checking hchecks _ => exact hchecks.elim
  | acked hawaits _ => exact hawaits.elim

/-- What `checkServerStatus` takes is the answer. -/
theorem Phase.hearAck {job : Job} {st : RecvSt} {up' : List SetterCall}
    (h : Phase failed (.recvAck job st) turn (c :: up') down pend debt) :
    c = .checkExecServerAck ∧ up' = [] ∧ down = [] ∧ debt = none ∧
      turn.Passes failed .acking := by
  cases h with
  | acked _ hturn => exact ⟨rfl, rfl, rfl, rfl, hturn⟩

end Phases

/-! ## The record -/

/-- All the bytes of `pkg` were put in by one call of `sendJob`, which went
through. -/
structure CarriedBy (sendJobs : List SendJob) (n : Nat) (call : SendJob) (pkg : Msg)
    (carriers : List Nat) : Prop where
  numbered : sendJobs[n]? = some call
  ret : call.ret = 1
  kept : call.putJobBack = false
  bytes : carriers ≠ []
  labels : ∀ m ∈ carriers, m = n
  arrived : call.job.call.Arrived pkg

/-- `jobs` are the messages taken so far, with their labels. -/
structure Book (sendJobs : List SendJob) (jobs : List (Msg × List Nat))
    (debt : Option SendJob) : Prop where
  carried : ∀ j ∈ jobs, ∃ n call, CarriedBy sendJobs n call j.1 j.2 ∧
    n + debt.toList.length < sendJobs.length
  once : jobs.Pairwise fun j j' => ∀ n ∈ j.2, ∀ n' ∈ j'.2, n < n'
  debt : ∀ call ∈ debt, call.ret = 1 ∧ call.putJobBack = false ∧
    ∃ n, n + 1 = sendJobs.length ∧ sendJobs[n]? = some call

section Record

variable {sendJobs : List SendJob} {jobs : List (Msg × List Nat)} {call : SendJob} {n : Nat}
  {pkg : Msg} {carriers : List Nat}

theorem CarriedBy.append (h : CarriedBy sendJobs n call pkg carriers) (more : List SendJob) :
    CarriedBy (sendJobs ++ more) n call pkg carriers := by
  obtain ⟨hn, -⟩ := List.getElem?_eq_some_iff.mp h.numbered
  refine { h with numbered := ?_ }
  rw [List.getElem?_append_left hn]
  exact h.numbered

theorem Book.empty : Book [] [] none :=
  ⟨fun _ h => by simp at h, .nil, fun _ h => by simp at h⟩

theorem Book.fail (h : Book sendJobs jobs none) (call : SendJob) :
    Book (sendJobs ++ [call]) jobs none where
  carried := by
    intro j hj
    obtain ⟨n, c, hc, hn⟩ := h.carried j hj
    refine ⟨n, c, hc.append _, ?_⟩
    simp at hn ⊢
    omega
  once := h.once
  debt := fun _ h => by simp at h

theorem Book.through (h : Book sendJobs jobs none) (job : Job) :
    Book (sendJobs ++ [⟨job, 1, false⟩]) jobs (some ⟨job, 1, false⟩) where
  carried := by
    intro j hj
    obtain ⟨n, c, hc, hn⟩ := h.carried j hj
    refine ⟨n, c, hc.append _, ?_⟩
    simp at hn ⊢
    exact hn
  once := h.once
  debt := by
    intro call hcall
    obtain rfl : (⟨job, 1, false⟩ : SendJob) = call := by simpa using hcall
    exact ⟨rfl, rfl, sendJobs.length, by simp, by simp⟩

/-- The job is taken, and its call of `sendJob` is later than those of the
others. -/
theorem Book.take (h : Book sendJobs jobs (some call)) (hne : carriers ≠ [])
    (hcarriers : ∀ m ∈ carriers, m + 1 = sendJobs.length) (hpkg : call.job.call.Arrived pkg) :
    Book sendJobs (jobs ++ [(pkg, carriers)]) none := by
  obtain ⟨hret, hkept, k, hk, hcall⟩ := h.debt call rfl
  have hnew : CarriedBy sendJobs k call pkg carriers :=
    ⟨hcall, hret, hkept, hne, fun m hm => by have := hcarriers m hm; omega, hpkg⟩
  refine ⟨?_, ?_, fun _ h => by simp at h⟩
  · intro j hj
    rcases List.mem_append.mp hj with hj | hj
    · obtain ⟨n, c, hc, hn⟩ := h.carried j hj
      exact ⟨n, c, hc, Nat.lt_of_le_of_lt (Nat.le_add_right _ _) hn⟩
    · obtain rfl := List.mem_singleton.mp hj
      exact ⟨k, call, hnew, by simp; omega⟩
  · refine List.pairwise_append.mpr ⟨h.once, List.pairwise_singleton _ _, ?_⟩
    intro j hj j' hj' n hn n' hn'
    obtain rfl := List.mem_singleton.mp hj'
    obtain ⟨m, c, hc, hm⟩ := h.carried j hj
    have hlast := hcarriers n' hn'
    rw [hc.labels n hn]
    simp at hm
    omega

end Record

/-! ## The reports -/

/-- What `fatherJobRoutine` sends behind its `wait`. -/
def LastReport (jobid : UInt16) (wire : List UInt8) : Prop :=
  ∃ status, wire = (SetterCall.jobDone jobid status).wire ∨
    wire = (SetterCall.jobSignaled jobid status).wire

/-- The reports of an execution that is over. Of two of them the second has not
been sent unless the first one has. -/
def Execution.Reported (jobid : UInt16) (e : Execution) : Prop :=
  (e.fork = some true ∧ ∃ last code code', LastReport jobid last ∧ (code' = 1 → code = 1) ∧
      e.reports = [((SetterCall.jobRun jobid).wire, code), (last, code')]) ∨
    e.fork = some false ∧ ∃ code, e.reports = [((SetterCall.jobDone jobid 41).wire, code)]

/-- The reports of an execution that goes on. -/
def Execution.Reporting (jobid : UInt16) (e : Execution) : Prop :=
  e.reports = [] ∨
    e.fork = some true ∧ ∃ code, e.reports = [((SetterCall.jobRun jobid).wire, code)]

/-- The execution the exec server is in, by where it stands. -/
inductive Doing (failed : Bool) : ExecPc → Option Execution → Prop
  | command : Doing failed .command none
  | execServerProtocol {st} : failed = false → Doing failed (.execServerProtocol st) none
  | closed : Doing failed .closed none
  | message {what msg st} : what.turn ≠ .working → Doing failed (.sendMsg what msg st) none
  | execJob {pkg carriers jobid} : execJobID pkg = some jobid →
      Doing failed (.execJob pkg) (some ⟨pkg, carriers, none, []⟩)
  | run {pkg carriers jobid msg st} : execJobID pkg = some jobid →
      msg.wire = (SetterCall.jobRun jobid).wire →
      Doing failed (.sendMsg (.runMsg jobid) msg st) (some ⟨pkg, carriers, some true, []⟩)
  | wait {pkg carriers jobid code} : execJobID pkg = some jobid → code = 1 ∨ failed = true →
      Doing failed (.wait jobid)
        (some ⟨pkg, carriers, some true, [((SetterCall.jobRun jobid).wire, code)]⟩)
  | done {pkg carriers jobid code msg st} : execJobID pkg = some jobid →
      code = 1 ∨ failed = true → LastReport jobid msg.wire →
      Doing failed (.sendMsg .doneMsg msg st)
        (some ⟨pkg, carriers, some true, [((SetterCall.jobRun jobid).wire, code)]⟩)
  | errorFork {pkg carriers jobid msg st} : execJobID pkg = some jobid →
      msg.wire = (SetterCall.jobDone jobid 41).wire →
      Doing failed (.sendMsg .doneMsg msg st) (some ⟨pkg, carriers, some false, []⟩)

theorem Doing.more {failed : Bool} {what : Sends} {msg : Msg} {st : SendSt}
    {current : Option Execution} (h : Doing failed (.sendMsg what msg st) current)
    (st' : SendSt) : Doing failed (.sendMsg what msg st') current := by
  cases h with
  | message hwhat => exact .message hwhat
  | run hid hmsg => exact .run hid hmsg
  | done hid hcode hmsg => exact .done hid hcode hmsg
  | errorFork hid hmsg => exact .errorFork hid hmsg

theorem Doing.command_none {failed : Bool} {current : Option Execution}
    (h : Doing failed .command current) : current = none := by
  cases h
  rfl

theorem Doing.reporting {failed : Bool} {pc : ExecPc} {e : Execution}
    (h : Doing failed pc (some e)) :
    ∃ jobid, execJobID e.pkg = some jobid ∧ e.Reporting jobid := by
  cases h with
  | execJob hid => exact ⟨_, hid, .inl rfl⟩
  | run hid _ => exact ⟨_, hid, .inl rfl⟩
  | wait hid _ => exact ⟨_, hid, .inr ⟨rfl, _, rfl⟩⟩
  | done hid _ _ => exact ⟨_, hid, .inr ⟨rfl, _, rfl⟩⟩
  | errorFork hid _ => exact ⟨_, hid, .inl rfl⟩

/-- The last message of an execution. -/
theorem Doing.reported {failed : Bool} {msg : Msg} {st : SendSt} {current : Option Execution}
    (h : Doing failed (.sendMsg .doneMsg msg st) current) {code : Int}
    (hcode : failed = true → code ≠ 1) :
    ∃ e jobid, current = some e ∧ execJobID e.pkg = some jobid ∧
      Execution.Reported jobid { e with reports := e.reports ++ [(msg.wire, code)] } := by
  cases h with
  | message hwhat => exact absurd rfl hwhat
  | done hid hrun hmsg =>
      refine ⟨_, _, rfl, hid, .inl ⟨rfl, _, _, _, hmsg, ?_, rfl⟩⟩
      intro hone
      rcases hrun with h | h
      · exact h
      · exact absurd hone (hcode h)
  | errorFork hid hmsg => exact ⟨_, _, rfl, hid, .inr ⟨rfl, code, by rw [← hmsg]; rfl⟩⟩

/-! ## The invariant -/

/-- `up` and `down` are on their way, `pend` is still with the handler, and
`debt` is a job to be taken. -/
structure Conn.Holds (s : Conn) (up down : List SetterCall) (pend : List UInt8)
    (debt : Option SendJob) : Prop where
  toMain : ∃ got pend, Lane SetterCall.wire up got s.toMain pend ∧ s.main.Reads up got ∧
    s.exec.Writes s.execFailed pend
  toExec : ∃ got, Lane SetterCall.wire down got s.toExec pend ∧ s.exec.Reads down got ∧
    s.taken.length = got.length
  labelled : s.carriers.length = s.toExec.length
  writes : s.main.Writes pend
  phase : Phase s.execFailed s.main s.exec.turn up down pend debt
  labels : s.main = .closed ∧ debt = none ∨
    ∀ n ∈ s.taken ++ s.carriers, n + debt.toList.length = s.sendJobs.length
  book : Book s.sendJobs (s.executions.map fun e => (e.pkg, e.carriers)) debt
  doing : Doing s.execFailed s.exec s.current
  reported : ∀ e ∈ s.executed, ∃ jobid, execJobID e.pkg = some jobid ∧ e.Reported jobid
  clean : s.mishaps = []

def Conn.Inv (s : Conn) : Prop := ∃ up down pend debt, s.Holds up down pend debt

theorem Conn.inv_init (stack : Msg) : (Conn.init stack).Inv := by
  refine ⟨[], [], [], none, ?_⟩
  exact
    { toMain := ⟨[], [], .empty, readsAt_start [] stack, .inr rfl⟩
      toExec := ⟨[], .empty, rfl, rfl⟩
      labelled := rfl
      writes := rfl
      phase := .idle (by simp) (.inl rfl)
      labels := .inr fun n hn => by simp [init] at hn
      book := .empty
      doing := .command
      reported := fun e he => by simp [init] at he
      clean := rfl }

end DistQueue.Handshake
