import DistQueue.Exec.Kind
import DistQueue.Exec.Phases

/-!
# The handshake fits

Every step of either side keeps the connection in one of its phases, so no
message comes where it is not expected.

A job is taken as a whole or not at all. In the first case the `sendMsg` of the
handler has gone through and `sendJob` returns 1.
-/

namespace DistQueue.Handshake

open DistQueue.Lib

/-! ## Steps of the handler -/

section Main

variable {s : Conn} {env : Env} {up down : List SetterCall} {pend p : List UInt8}
  {debt : Option SendJob} {pc : MainPc} {job : Job} {pkg : Msg}

theorem Phase.attend {failed : Bool} {turn : Turn} {st : RecvSt}
    (h : Phase failed (.attendExecServ st) turn up down pend debt) (st' : RecvSt) :
    Phase failed (.attendExecServ st') turn up down pend debt := by
  cases h with
  | idle hup hturn => exact .idle hup hturn
  | asked hup hturn => exact .asked hup hturn
  | leaving hup hturn => exact .leaving hup hturn
  | carried hturn => exact .carried hturn
  | checking hchecks _ => exact hchecks.elim
  | acked hawaits _ => exact hawaits.elim

theorem Conn.Holds.labels_of_open (h : s.Holds up down pend debt) (hpc : s.main ≠ .closed) :
    ∀ n ∈ s.taken ++ s.carriers, n + debt.toList.length = s.sendJobs.length := by
  rcases h.labels with ⟨hclosed, -⟩ | hlabels
  · exact absurd hclosed hpc
  · exact hlabels

/-- The handler leaves. -/
theorem Conn.Holds.close (h : s.Holds up down pend debt) :
    Conn.Holds { s with main := .closed } up down pend debt := by
  obtain ⟨got, pend', hlane, -, hwrites⟩ := h.toMain
  refine { h with
    toMain := ⟨got, pend', hlane, trivial, hwrites⟩
    writes := trivial
    phase := h.phase.close h.writes
    labels := ?_ }
  rcases h.labels with ⟨-, hdebt⟩ | hlabels
  · exact .inl ⟨rfl, hdebt⟩
  · exact .inr hlabels

theorem Conn.Holds.sendJobFails (h : s.Holds up down pend none) (job : Job) :
    (s.sendJobFails job).Holds up down pend none :=
  { h.close with
    labels := .inl ⟨rfl, rfl⟩
    book := h.book.fail _ }

theorem Conn.putIn_nil (s : Conn) : s.putIn [] = s := by
  cases s
  simp [putIn]

theorem Conn.Holds.labelled_putIn (h : s.Holds up down pend debt) (p : List UInt8) :
    (s.putIn p).carriers.length = (s.putIn p).toExec.length := by
  show (s.carriers ++ List.replicate p.length s.sendJobs.length).length = (s.toExec ++ p).length
  simp [h.labelled]

/-- What is put in is labelled like what is there. -/
theorem Conn.Holds.labels_putIn (h : s.Holds up down pend none) (hpc : s.main ≠ .closed)
    (p : List UInt8) : ∀ n ∈ (s.putIn p).taken ++ (s.putIn p).carriers, n = s.sendJobs.length := by
  show ∀ n ∈ s.taken ++ (s.carriers ++ List.replicate p.length s.sendJobs.length),
    n = s.sendJobs.length
  intro n hn
  rw [← List.append_assoc] at hn
  rcases List.mem_append.mp hn with hn | hn
  · exact h.labels_of_open hpc n hn
  · exact List.eq_of_mem_replicate hn

/-- The handler puts in `p`. -/
theorem Conn.Holds.putIn (h : s.Holds up down (p ++ pend) none)
    (hreads : ∀ got, s.main.Reads up got → pc.Reads up got) (hwrites : pc.Writes pend)
    (hphase : Phase s.execFailed pc s.exec.turn up down pend none) (hpc : s.main ≠ .closed) :
    Conn.Holds { s.putIn p with main := pc } up down pend none := by
  obtain ⟨gotUp, pendUp, hup, hreadsUp, hwritesUp⟩ := h.toMain
  obtain ⟨got, hlane, hreadsDown, htaken⟩ := h.toExec
  exact
    { h with
      toMain := ⟨gotUp, pendUp, hup, hreads gotUp hreadsUp, hwritesUp⟩
      toExec := ⟨got, hlane.push, hreadsDown, htaken⟩
      labelled := h.labelled_putIn p
      writes := hwrites
      phase := hphase
      labels := .inr (h.labels_putIn hpc p) }

/-! ### `attendExecServ` -/

theorem attend_report {c : SetterCall} (hc : IsReport c) (s : Conn) (buf : Msg) :
    s.attend (buf.over c.wire) = { s with main := .attendExecServ (.start (buf.over c.wire)) } := by
  have htype := SetterCall.getType_over buf c
  have hreceive : ∃ jobid state exitValue, (receiveExecServ (buf.over c.wire) : Pc numQueueMax) =
      .changeStateJob jobid state exitValue := by
    unfold receiveExecServ
    rw [htype]
    cases c with
    | jobRun _ => exact ⟨_, _, _, rfl⟩
    | jobDone _ _ => exact ⟨_, _, _, rfl⟩
    | jobSignaled _ _ => exact ⟨_, _, _, rfl⟩
    | _ => exact hc.elim
  obtain ⟨jobid, state, exitValue, hreceive⟩ := hreceive
  rw [Conn.attend, hreceive]

theorem attend_jobReq (s : Conn) (buf : Msg) :
    s.attend (buf.over SetterCall.jobReq.wire) = { s with main := .getJob } := by
  have hreceive : (receiveExecServ (buf.over SetterCall.jobReq.wire) : Pc numQueueMax) =
      .sendJob := by
    unfold receiveExecServ
    rw [SetterCall.getType_over]
    rfl
  rw [Conn.attend, hreceive]

theorem attend_closed (s : Conn) (buf : Msg) :
    s.attend (buf.over SetterCall.closedConnectionExecServer.wire) =
      { s with main := .closed } := by
  have hreceive : (receiveExecServ (buf.over SetterCall.closedConnectionExecServer.wire) :
      Pc numQueueMax) = .closed := by
    unfold receiveExecServ
    rw [SetterCall.getType_over]
    rfl
  rw [Conn.attend, hreceive]

theorem Turn.Passes.listens {turn mark : Turn} {failed : Bool} (h : turn.Passes failed mark)
    (hnot : turn = mark → failed = false → False) : turn.Listens := by
  rcases h with ⟨hturn, hfailed⟩ | h
  · exact (hnot hturn hfailed).elim
  · exact h

/-- A message that is all there is not being written any more. -/
theorem ExecPc.Writes.not_sending {pc : ExecPc} (h : pc.Writes false []) {turn : Turn}
    (hturn : turn ≠ .working ∧ turn ≠ .waiting ∧ turn ≠ .gone) : pc.turn ≠ turn := by
  intro heq
  obtain ⟨hworking, hwaiting, hgone⟩ := hturn
  cases pc with
  | sendMsg what pkg st =>
      rcases h with h | h
      · cases h
      · exact h.ne_nil rfl
  | command => exact hworking heq.symm
  | execJob pkg => exact hworking heq.symm
  | wait jobid => exact hworking heq.symm
  | execServerProtocol st => exact hwaiting heq.symm
  | closed => exact hgone heq.symm

theorem Conn.Holds.attendExecServStep {st : RecvSt} (h : s.Holds up down pend debt)
    (hpc : s.main = .attendExecServ st) (hr : env.result ≠ .eintr) :
    (s.attendExecServStep env st).Inv := by
  obtain ⟨got, pendUp, hlane, hreads, hwritesUp⟩ := h.toMain
  have hphase := h.phase
  have hwrites := h.writes
  rw [hpc] at hreads hphase hwrites
  have hpulled := recvCall_pulled hlane hreads hr
  unfold Conn.attendExecServStep
  generalize recvLoop [env.result] s.toMain st = out at hpulled ⊢
  cases hpulled with
  | @failed code buf hcode =>
      have hne : code ≠ 1 := by omega
      simp only [if_neg hne]
      exact ⟨up, down, pend, debt, h.close⟩
  | more hchan hlane' hreads' =>
      exact ⟨up, down, pend, debt,
        { h with
          toMain := ⟨_, pendUp, hlane', hreads', hwritesUp⟩
          writes := hwrites
          phase := hphase.attend _
          labels := .inr (h.labels_of_open (by simp [hpc])) }⟩
  | @whole c up' buf p rest hup hchan hframe hlane' =>
      subst hup
      simp only [if_pos]
      rcases hphase.hear with ⟨hreport, hphase'⟩ | ⟨rfl, rfl, rfl, rfl, hturn⟩ |
        ⟨rfl, hphase'⟩
      · rw [attend_report hreport]
        exact ⟨up', down, pend, debt,
          { h with
            toMain := ⟨[], pendUp, hlane', readsAt_start up' _, hwritesUp⟩
            writes := hwrites
            phase := hphase' _
            labels := .inr (h.labels_of_open (by simp [hpc])) }⟩
      · rw [attend_jobReq]
        obtain ⟨-, -, rfl⟩ := hlane'.of_nil
        have hlistens : s.exec.turn.Listens := hturn.listens fun hasking hfailed => by
          rw [hfailed] at hwritesUp
          exact hwritesUp.not_sending (by decide) hasking
        exact ⟨[], [], pend, none,
          { h with
            toMain := ⟨[], [], hlane', rfl, hwritesUp⟩
            writes := hwrites
            phase := .taking hlistens
            labels := .inr (h.labels_of_open (by simp [hpc])) }⟩
      · rw [attend_closed]
        exact ⟨up', down, pend, debt,
          { h with
            toMain := ⟨[], pendUp, hlane', trivial, hwritesUp⟩
            writes := trivial
            phase := hphase'
            labels := .inr (h.labels_of_open (by simp [hpc])) }⟩

/-! ### `sendJob` -/

theorem ExecPc.Reads.append {pc : ExecPc} {got chan : List UInt8} (h : pc.Reads down got)
    (hlane : Lane SetterCall.wire down got chan pend) (c : SetterCall) :
    pc.Reads (down ++ [c]) got := by
  cases pc with
  | execServerProtocol st => exact ReadsAt.append h hlane c
  | _ => exact h

/-- The handler begins a message. -/
theorem Conn.Holds.begin (h : s.Holds up [] [] none) (c : SetterCall)
    (hreads : ∀ got, s.main.Reads up got → pc.Reads up got) (hwrites : pc.Writes c.wire)
    (hphase : Phase s.execFailed pc s.exec.turn up [c] c.wire none) (hpc : s.main ≠ .closed) :
    Conn.Holds { s with main := pc } up [c] c.wire none := by
  obtain ⟨gotUp, pendUp, hup, hreadsUp, hwritesUp⟩ := h.toMain
  obtain ⟨got, hlane, hreadsDown, htaken⟩ := h.toExec
  exact
    { h with
      toMain := ⟨gotUp, pendUp, hup, hreads gotUp hreadsUp, hwritesUp⟩
      toExec := ⟨got, hlane.send c.wire_ne_nil, hreadsDown.append hlane c, htaken⟩
      writes := hwrites
      phase := hphase
      labels := .inr (h.labels_of_open hpc) }

theorem Conn.Holds.getJobStep (h : s.Holds up down pend debt) (hpc : s.main = .getJob) :
    (s.getJobStep env).Inv := by
  have hphase := h.phase
  have hwrites := h.writes
  rw [hpc] at hphase hwrites
  cases hphase with
  | taking hturn =>
      obtain rfl : pend = [] := hwrites
      refine ⟨_, _, _, _, h.begin .checkExecServer ?_ ?_ ?_ (by simp [hpc])⟩
      · intro got hgot
        rw [hpc] at hgot
        exact hgot
      · exact writesAt_start .checkExecServer env.stack
      · exact .checking trivial hturn
  | checking hchecks _ => exact hchecks.elim
  | acked hawaits _ => exact hawaits.elim

theorem Conn.Holds.checkServerStatusStep {st : SendSt} (h : s.Holds up down pend debt)
    (hpc : s.main = .checkServerStatus job pkg st) (hr : env.result ≠ .eintr) :
    (s.checkServerStatusStep env job pkg st).Inv := by
  have hphase := h.phase
  have hwrites := h.writes
  rw [hpc] at hphase hwrites
  have hreads : ∀ got, s.main.Reads up got → got = [] := by
    intro got hgot
    rw [hpc] at hgot
    exact hgot
  cases hphase with
  | acked hawaits _ => exact hawaits.elim
  | checking _ hturn =>
      have hpushed := @sendCall_pushed _ env.around _ _ hwrites _ hr
      unfold Conn.checkServerStatusStep
      generalize sendCall (pkg.mem env.around) env.result st = out at hpushed ⊢
      cases hpushed with
      | failed hcode =>
          simp only [if_pos hcode, Conn.putIn_nil]
          exact ⟨_, _, _, _, h.sendJobFails job⟩
      | more hpend hwrites' =>
          subst hpend
          exact ⟨_, _, _, _, h.putIn hreads hwrites' (.checking trivial hturn) (by simp [hpc])⟩
      | whole =>
          rw [← List.append_nil pend] at h
          exact ⟨_, _, _, _, h.putIn hreads rfl (.checking trivial hturn) (by simp [hpc])⟩

theorem Conn.Holds.selectStep (h : s.Holds up down pend debt) (hpc : s.main = .select job pkg) :
    (s.selectStep env job pkg).Inv := by
  obtain ⟨gotUp, pendUp, hup, hreads, hwritesUp⟩ := h.toMain
  have hphase := h.phase
  have hwrites := h.writes
  rw [hpc] at hphase hwrites hreads
  obtain rfl : gotUp = [] := hreads
  have hnone : debt = none := by cases hphase <;> rfl
  subst hnone
  have hready : Conn.Holds { s with main := .recvAck job (.start pkg) } up down pend none :=
    { h with
      toMain := ⟨[], pendUp, hup, readsAt_start up pkg, hwritesUp⟩
      writes := hwrites
      phase := by
        cases hphase with
        | checking _ hturn => exact .checking trivial hturn
        | acked _ hturn => exact .acked trivial hturn
      labels := .inr (h.labels_of_open (by simp [hpc])) }
  unfold Conn.selectStep
  cases env.select with
  | readable => exact ⟨_, _, _, _, hready⟩
  | timeout => exact ⟨_, _, _, _, h.sendJobFails job⟩
  | error => exact ⟨_, _, _, _, h.sendJobFails job⟩

theorem Job.msg_eq (job : Job) (m : Msg) : job.msg m = job.call.apply m := by
  unfold Job.msg Job.call
  split <;> rfl

theorem Conn.Holds.recvAckStep {st : RecvSt} (h : s.Holds up down pend debt)
    (hpc : s.main = .recvAck job st) (hr : env.result ≠ .eintr) :
    (s.recvAckStep env job st).Inv := by
  obtain ⟨got, pendUp, hlane, hreads, hwritesUp⟩ := h.toMain
  have hphase := h.phase
  have hwrites := h.writes
  rw [hpc] at hreads hphase hwrites
  have hnone : debt = none := by cases hphase <;> rfl
  subst hnone
  have hpulled := recvCall_pulled hlane hreads hr
  unfold Conn.recvAckStep
  generalize recvLoop [env.result] s.toMain st = out at hpulled ⊢
  cases hpulled with
  | failed hcode =>
      simp only [if_pos hcode]
      exact ⟨_, _, _, _, h.sendJobFails job⟩
  | @more st' p rest hchan hlane' hreads' =>
      refine ⟨up, down, pend, none,
        { h with
          toMain := ⟨_, pendUp, hlane', hreads', hwritesUp⟩
          writes := hwrites
          phase := ?_
          labels := .inr (h.labels_of_open (by simp [hpc])) }⟩
      cases hphase with
      | checking _ hturn => exact .checking trivial hturn
      | acked _ hturn => exact .acked trivial hturn
  | @whole c up' buf p rest hup hchan hframe hlane' =>
      subst hup
      obtain ⟨rfl, rfl, rfl, -, hturn⟩ := hphase.hearAck
      obtain ⟨-, -, rfl⟩ := hlane'.of_nil
      obtain rfl : pend = [] := hwrites
      have htype : ¬ getType (buf.over SetterCall.checkExecServerAck.wire) ≠
          MsgType.chExecSerAck.toByte := fun hne => hne (SetterCall.getType_over buf _)
      simp only [if_neg htype]
      have hlistens : s.exec.turn.Listens := hturn.listens fun hacking hfailed => by
        rw [hfailed] at hwritesUp
        exact hwritesUp.not_sending (by decide) hacking
      -- The answer is taken, and the job not begun yet.
      have hbetween : Conn.Holds { s with main := .getJob, toMain := rest } [] [] [] none :=
        { h with
          toMain := ⟨[], [], hlane', rfl, hwritesUp⟩
          writes := rfl
          phase := .taking hlistens
          labels := .inr (h.labels_of_open (by simp [hpc])) }
      refine ⟨_, _, _, _, hbetween.begin job.call (fun _ hgot => hgot) ?_ (.sending hlistens)
        (by simp)⟩
      rw [Job.msg_eq]
      exact writesAt_start job.call env.stack

theorem Conn.Holds.sendJobStep {st : SendSt} (h : s.Holds up down pend debt)
    (hpc : s.main = .sendJob job pkg st) (hr : env.result ≠ .eintr) :
    (s.sendJobStep env job pkg st).Inv := by
  have hphase := h.phase
  have hwrites := h.writes
  rw [hpc] at hphase hwrites
  have hreads : ∀ got, s.main.Reads up got → got = [] := by
    intro got hgot
    rw [hpc] at hgot
    exact hgot
  cases hphase with
  | checking hchecks _ => exact hchecks.elim
  | acked hawaits _ => exact hawaits.elim
  | sending hturn =>
      have hpushed := @sendCall_pushed _ env.around _ _ hwrites _ hr
      unfold Conn.sendJobStep
      generalize sendCall (pkg.mem env.around) env.result st = out at hpushed ⊢
      cases hpushed with
      | failed hcode =>
          simp only [if_pos hcode, Conn.putIn_nil]
          exact ⟨_, _, _, _, h.sendJobFails job⟩
      | more hpend hwrites' =>
          subst hpend
          exact ⟨_, _, _, _, h.putIn hreads hwrites' (.sending hturn) (by simp [hpc])⟩
      | whole =>
          rw [← List.append_nil pend] at h
          obtain ⟨gotUp, pendUp, hup, hreadsUp, hwritesUp⟩ := h.toMain
          obtain ⟨got, hlane, hreadsDown, htaken⟩ := h.toExec
          obtain rfl := hreads gotUp hreadsUp
          refine ⟨[], [job.call], [], some ⟨job, 1, false⟩,
            { h with
              toMain := ⟨[], pendUp, hup, readsAt_start [] env.stack, hwritesUp⟩
              toExec := ⟨got, hlane.push, hreadsDown, htaken⟩
              labelled := h.labelled_putIn pend
              writes := rfl
              phase := @Phase.carried _ _ _ _ ⟨job, 1, false⟩ hturn
              labels := .inr fun n hn => ?_
              book := h.book.through job }⟩
          have hlabel := h.labels_putIn (by simp [hpc]) pend n hn
          simp [hlabel, Conn.putIn]

theorem Conn.Inv.mainStep {s' : Conn} (h : s.Inv) (hr : env.result ≠ .eintr)
    (hs : s.mainStep env = some s') : s'.Inv := by
  obtain ⟨up, down, pend, debt, h⟩ := h
  unfold Conn.mainStep at hs
  cases hpc : s.main with
  | attendExecServ st =>
      rw [hpc] at hs
      obtain rfl := Option.some.inj hs
      exact h.attendExecServStep hpc hr
  | getJob =>
      rw [hpc] at hs
      obtain rfl := Option.some.inj hs
      exact h.getJobStep hpc
  | checkServerStatus job pkg st =>
      rw [hpc] at hs
      obtain rfl := Option.some.inj hs
      exact h.checkServerStatusStep hpc hr
  | select job pkg =>
      rw [hpc] at hs
      obtain rfl := Option.some.inj hs
      exact h.selectStep hpc
  | recvAck job st =>
      rw [hpc] at hs
      obtain rfl := Option.some.inj hs
      exact h.recvAckStep hpc hr
  | sendJob job pkg st =>
      rw [hpc] at hs
      obtain rfl := Option.some.inj hs
      exact h.sendJobStep hpc hr
  | closed =>
      rw [hpc] at hs
      cases hs

end Main

/-! ## Steps of the exec server -/

section Exec

variable {s : Conn} {env : Env} {up down : List SetterCall} {pend : List UInt8}
  {debt : Option SendJob} {pkg : Msg}

/-- It is in no call on the connection. -/
def ExecPc.Quiet : ExecPc → Prop
  | .command | .execJob _ | .wait _ => True
  | _ => False

theorem ExecPc.Quiet.turn {pc : ExecPc} (h : pc.Quiet) : pc.turn = .working := by
  cases pc with
  | command => rfl
  | execJob pkg => rfl
  | wait jobid => rfl
  | _ => exact h.elim

theorem ExecPc.Quiet.reads {pc : ExecPc} (h : pc.Quiet) {got : List UInt8} :
    pc.Reads down got ↔ got = [] := by
  cases pc with
  | command => exact Iff.rfl
  | execJob pkg => exact Iff.rfl
  | wait jobid => exact Iff.rfl
  | _ => exact h.elim

theorem ExecPc.Quiet.writes {pc : ExecPc} (h : pc.Quiet) {failed : Bool} :
    pc.Writes failed pend ↔ failed = true ∨ pend = [] := by
  cases pc with
  | command => exact Iff.rfl
  | execJob pkg => exact Iff.rfl
  | wait jobid => exact Iff.rfl
  | _ => exact h.elim

theorem MainPc.Reads.append {pc : MainPc} {got chan : List UInt8} (h : pc.Reads up got)
    (hlane : Lane SetterCall.wire up got chan pend) (c : SetterCall) :
    pc.Reads (up ++ [c]) got := by
  cases pc with
  | attendExecServ st => exact ReadsAt.append h hlane c
  | recvAck job st => exact ReadsAt.append h hlane c
  | _ => exact h

/-- The exec server begins a message, which is not heard behind a failed call. -/
theorem Conn.Holds.speak (h : s.Holds up down pend debt) (hquiet : s.exec.Quiet) {what : Sends}
    {c : SetterCall} {m : Msg} {current : Option Execution}
    (hnext : what.turn = .asking ∧ c = .jobReq ∨
      what.turn = .leaving ∧ c = .closedConnectionExecServer ∨
      what.turn = .working ∧ IsReport c)
    (hdoing : Doing s.execFailed (.sendMsg what (c.apply m) (.start (c.apply m))) current)
    (hcurrent : (s.executed ++ current.toList).map (fun e => (e.pkg, e.carriers)) =
      s.executions.map fun e => (e.pkg, e.carriers)) :
    Conn.Inv { s with
      exec := .sendMsg what (c.apply m) (.start (c.apply m))
      current := current } := by
  obtain ⟨gotUp, pendUp, hup, hreadsUp, hwritesUp⟩ := h.toMain
  obtain ⟨got, hlane, hreads, htaken⟩ := h.toExec
  obtain rfl := hquiet.reads.mp hreads
  have hphase := h.phase
  rw [hquiet.turn] at hphase
  have hbook : Book s.sendJobs ((s.executed ++ current.toList).map fun e => (e.pkg, e.carriers))
      debt := by
    rw [hcurrent]
    exact h.book
  by_cases hfailed : s.execFailed = true
  · have hnext' : Phase s.execFailed s.main what.turn up down pend debt := by
      rw [hfailed]
      exact hphase.mute _
    exact ⟨up, down, pend, debt,
      { h with
        toMain := ⟨gotUp, pendUp, hup, hreadsUp, .inl hfailed⟩
        toExec := ⟨[], hlane, rfl, htaken⟩
        phase := hnext'
        book := hbook
        doing := hdoing }⟩
  · rw [Bool.not_eq_true] at hfailed
    rw [hfailed] at hphase hwritesUp
    obtain rfl := (hquiet.writes.mp hwritesUp).resolve_left (by simp)
    have hnext' : Phase s.execFailed s.main what.turn (up ++ [c]) down pend debt := by
      rw [hfailed]
      exact hphase.speak hnext
    exact ⟨up ++ [c], down, pend, debt,
      { h with
        toMain := ⟨gotUp, c.wire, hup.send c.wire_ne_nil, hreadsUp.append hup c,
          .inr (writesAt_start c m)⟩
        toExec := ⟨[], hlane, rfl, htaken⟩
        phase := hnext'
        book := hbook
        doing := hdoing }⟩

theorem Conn.Holds.commandStep (h : s.Holds up down pend debt) (hpc : s.exec = .command) :
    (s.commandStep env).Inv := by
  have hquiet : s.exec.Quiet := by rw [hpc]; trivial
  have hidle := h.doing
  rw [hpc] at hidle
  have hmessage : ∀ {what msg st}, Sends.turn what ≠ .working →
      Doing s.execFailed (.sendMsg what msg st) s.current := by
    intro what msg st hwhat
    rw [hidle.command_none]
    exact .message hwhat
  unfold Conn.commandStep
  cases env.command with
  | job => exact h.speak hquiet (m := env.stack) (.inl ⟨rfl, rfl⟩) (hmessage (by decide)) rfl
  | stop =>
      exact h.speak hquiet (m := env.stack) (.inr (.inl ⟨rfl, rfl⟩)) (hmessage (by decide)) rfl
  | bad => exact ⟨_, _, _, _, h⟩

theorem Doing.execJob_some {failed : Bool} {current : Option Execution}
    (h : Doing failed (.execJob pkg) current) :
    ∃ carriers jobid, execJobID pkg = some jobid ∧ current = some ⟨pkg, carriers, none, []⟩ := by
  cases h with
  | execJob hid => exact ⟨_, _, hid, rfl⟩

theorem Doing.wait_some {failed : Bool} {jobid : UInt16} {current : Option Execution}
    (h : Doing failed (.wait jobid) current) :
    ∃ pkg carriers code, execJobID pkg = some jobid ∧ (code = 1 ∨ failed = true) ∧
      current =
        some ⟨pkg, carriers, some true, [((SetterCall.jobRun jobid).wire, code)]⟩ := by
  cases h with
  | wait hid hcode => exact ⟨_, _, _, hid, hcode, rfl⟩

theorem Conn.Holds.execJobStep (h : s.Holds up down pend debt) (hpc : s.exec = .execJob pkg) :
    (s.execJobStep env pkg).Inv := by
  have hquiet : s.exec.Quiet := by rw [hpc]; trivial
  have hdoing := h.doing
  rw [hpc] at hdoing
  obtain ⟨carriers, jobid, hid, hcurrent⟩ := hdoing.execJob_some
  have hforked : ∀ ok, (s.forked ok).current = some ⟨pkg, carriers, some ok, []⟩ := by
    intro ok
    show s.current.map _ = _
    rw [hcurrent]
    rfl
  have hkey : ∀ ok, (s.executed ++ (s.forked ok).current.toList).map
      (fun e => (e.pkg, e.carriers)) = s.executions.map fun e => (e.pkg, e.carriers) := by
    intro ok
    rw [hforked, Conn.executions, hcurrent]
    simp
  unfold Conn.execJobStep
  rw [hid]
  cases env.fork with
  | true =>
      refine h.speak hquiet (c := .jobRun jobid) (m := env.stack)
        (.inr (.inr ⟨rfl, trivial⟩)) ?_ (hkey true)
      rw [hforked]
      exact .run hid (SetterCall.apply_wire env.stack (.jobRun jobid))
  | false =>
      refine h.speak hquiet (c := .jobDone jobid 41) (m := env.stack)
        (.inr (.inr ⟨rfl, trivial⟩)) ?_ (hkey false)
      rw [hforked]
      exact .errorFork hid (SetterCall.apply_wire env.stack (.jobDone jobid 41))

theorem Conn.Holds.waitStep {jobid : UInt16} (h : s.Holds up down pend debt)
    (hpc : s.exec = .wait jobid) : (s.waitStep env jobid).Inv := by
  have hquiet : s.exec.Quiet := by rw [hpc]; trivial
  have hdoing := h.doing
  rw [hpc] at hdoing
  obtain ⟨pkg, carriers, code, hid, hcode, hcurrent⟩ := hdoing.wait_some
  have hlast : ∀ {msg st}, LastReport jobid (Msg.wire msg) →
      Doing s.execFailed (.sendMsg .doneMsg msg st) s.current := by
    intro msg st hmsg
    rw [hcurrent]
    exact .done hid hcode hmsg
  unfold Conn.waitStep
  cases env.wait with
  | exited status =>
      exact h.speak hquiet (c := .jobDone jobid status) (m := env.stack)
        (.inr (.inr ⟨rfl, trivial⟩))
        (hlast ⟨status, .inl (SetterCall.apply_wire env.stack (.jobDone jobid status))⟩) rfl
  | signaled sig =>
      exact h.speak hquiet (c := .jobSignaled jobid sig) (m := env.stack)
        (.inr (.inr ⟨rfl, trivial⟩))
        (hlast ⟨sig, .inr (SetterCall.apply_wire env.stack (.jobSignaled jobid sig))⟩) rfl

/-! ### `sendMsg` -/

theorem IoFails.sendCall {r : IoResult} (h : IoFails r) (mem : Int → UInt8) (st : SendSt) :
    ∃ code, DistQueue.sendCall mem r st = ([], .ret code) ∧ (code = -1 ∨ code = 0) := by
  rcases h with rfl | rfl
  · exact ⟨-1, rfl, .inl rfl⟩
  · exact ⟨0, rfl, .inr rfl⟩

/-- The exec server goes. -/
theorem Conn.Holds.leave (h : s.Holds up down pend debt) (hcurrent : s.current = none)
    {toMain : List UInt8} (failed : Bool)
    (hup : ∃ got pend, Lane SetterCall.wire up got toMain pend ∧ s.main.Reads up got) :
    Conn.Holds { s with exec := .closed, toMain := toMain, execFailed := failed }
      up down pend debt := by
  obtain ⟨gotUp, pendUp, hup, hreadsUp⟩ := hup
  obtain ⟨got, hlane, -, htaken⟩ := h.toExec
  have hdoing : Doing failed .closed s.current := by
    rw [hcurrent]
    exact .closed
  exact
    { h with
      toMain := ⟨gotUp, pendUp, hup, hreadsUp, trivial⟩
      toExec := ⟨got, hlane, trivial, htaken⟩
      phase := h.phase.gone failed
      doing := hdoing }

theorem Doing.message_none {failed : Bool} {what : Sends} {msg : Msg} {st : SendSt}
    {current : Option Execution} (h : Doing failed (.sendMsg what msg st) current)
    (hwhat : what.turn ≠ .working) : current = none := by
  cases h with
  | message _ => rfl
  | run _ _ => exact absurd rfl hwhat
  | done _ _ _ => exact absurd rfl hwhat
  | errorFork _ _ => exact absurd rfl hwhat

theorem Doing.runMsg_some {failed : Bool} {jobid : UInt16} {msg : Msg} {st : SendSt}
    {current : Option Execution} (h : Doing failed (.sendMsg (.runMsg jobid) msg st) current) :
    ∃ pkg carriers, execJobID pkg = some jobid ∧ msg.wire = (SetterCall.jobRun jobid).wire ∧
      current = some ⟨pkg, carriers, some true, []⟩ := by
  cases h with
  | message hwhat => exact absurd rfl hwhat
  | run hid hmsg => exact ⟨_, _, hid, hmsg, rfl⟩

theorem nil_of_length_eq {α β : Type} {l : List α} {l' : List β} (h : l.length = l'.length)
    (hl' : l' = []) : l = [] := by
  subst hl'
  exact List.length_eq_zero_iff.mp h

/-- What `sendMsg` leaves in the stream when it returns `code`; `failed` says
whether a call has failed by then. -/
structure Conn.Returns (s : Conn) (up : List SetterCall) (toMain : List UInt8) (failed : Bool)
    (code : Int) : Prop where
  code : code = 1 ∧ failed = false ∨ (code = -1 ∨ code = 0) ∧ failed = true
  kept : s.execFailed = true → failed = true
  toMain : ∃ got pend, Lane SetterCall.wire up got toMain pend ∧ s.main.Reads up got ∧
    (failed = true ∨ pend = [])

theorem Conn.Returns.execFailed {toMain : List UInt8} {code : Int}
    (h : s.Returns up toMain false code) : s.execFailed = false := by
  cases hs : s.execFailed with
  | false => rfl
  | true => exact absurd (h.kept hs) (by simp)

section Sent

variable {what : Sends} {st : SendSt} {toMain : List UInt8} {failed : Bool} {code : Int}

/-- Behind a question that went through, an answer is waited for. -/
theorem Conn.Holds.ask (h : s.Holds up down pend debt) (hpc : s.exec = .sendMsg what pkg st)
    (hret : s.Returns up toMain failed code)
    (hwhat : what.turn = .asking ∨ what.turn = .acking) :
    (if code = -1 ∨ code = 0 then
      { s with toMain := toMain, execFailed := failed, exec := .closed }
    else Conn.protocol { s with toMain := toMain, execFailed := failed } env).Inv := by
  have hphase := h.phase
  have hdoing := h.doing
  rw [hpc] at hphase hdoing
  have hnone : s.current = none := by
    refine hdoing.message_none ?_
    rcases hwhat with hwhat | hwhat <;> rw [hwhat] <;> decide
  obtain ⟨gotUp, pendUp, hlaneUp, hreadsUp, hpendUp⟩ := hret.toMain
  rcases hret.code with ⟨rfl, rfl⟩ | ⟨hcode, rfl⟩
  · rw [if_neg (by decide)]
    obtain ⟨got, hlane, hreads, htaken⟩ := h.toExec
    rw [hpc] at hreads
    obtain rfl : got = [] := hreads
    have hphase' : Phase false s.main .waiting up down pend debt := by
      rw [hret.execFailed] at hphase
      exact hphase.wait hwhat
    have hdoing' : Doing false (.execServerProtocol (.start env.stack)) s.current := by
      rw [hnone]
      exact .execServerProtocol rfl
    refine ⟨up, down, pend, debt,
      { h with
        toMain := ⟨gotUp, pendUp, hlaneUp, hreadsUp, hpendUp⟩
        toExec := ⟨[], hlane, readsAt_start down env.stack, rfl⟩
        phase := hphase'
        labels := ?_
        doing := hdoing' }⟩
    have hlabels := h.labels
    rw [nil_of_length_eq htaken rfl] at hlabels
    exact hlabels
  · rw [if_pos hcode]
    exact ⟨_, _, _, _, h.leave hnone true ⟨gotUp, pendUp, hlaneUp, hreadsUp⟩⟩

/-- Behind a report the work goes on. -/
theorem Conn.Holds.work {pc : ExecPc} {executed : List Execution} {current : Option Execution}
    (h : s.Holds up down pend debt) (hpc : s.exec = .sendMsg what pkg st)
    (hret : s.Returns up toMain failed code) (hwhat : what.turn = .working) (hquiet : pc.Quiet)
    (hkey : (executed ++ current.toList).map (fun e => (e.pkg, e.carriers)) =
      s.executions.map fun e => (e.pkg, e.carriers))
    (hdoing : Doing failed pc current)
    (hreported : ∀ e ∈ executed, ∃ jobid, execJobID e.pkg = some jobid ∧ e.Reported jobid) :
    Conn.Inv { s with
      exec := pc
      toMain := toMain
      execFailed := failed
      executed := executed
      current := current } := by
  have hphase := h.phase
  rw [hpc, show (ExecPc.sendMsg what pkg st).turn = .working from hwhat] at hphase
  obtain ⟨gotUp, pendUp, hlaneUp, hreadsUp, hpendUp⟩ := hret.toMain
  obtain ⟨got, hlane, hreads, htaken⟩ := h.toExec
  rw [hpc] at hreads
  obtain rfl : got = [] := hreads
  have hphase' : Phase failed s.main pc.turn up down pend debt := by
    rw [hquiet.turn]
    cases failed with
    | true => exact hphase.mute .working
    | false =>
        rw [hret.execFailed] at hphase
        exact hphase
  have hbook : Book s.sendJobs ((executed ++ current.toList).map fun e => (e.pkg, e.carriers))
      debt := by
    rw [hkey]
    exact h.book
  exact ⟨up, down, pend, debt,
    { h with
      toMain := ⟨gotUp, pendUp, hlaneUp, hreadsUp, hquiet.writes.mpr hpendUp⟩
      toExec := ⟨[], hlane, hquiet.reads.mpr rfl, htaken⟩
      phase := hphase'
      book := hbook
      doing := hdoing
      reported := hreported }⟩

/-- `sendMsg` has returned. -/
theorem Conn.Holds.sent (h : s.Holds up down pend debt) (hpc : s.exec = .sendMsg what pkg st)
    (hret : s.Returns up toMain failed code) :
    (Conn.sent { s with toMain := toMain, execFailed := failed } env pkg code what).Inv := by
  have hdoing := h.doing
  rw [hpc] at hdoing
  cases what with
  | jobRequest => exact h.ask hpc hret (.inl rfl)
  | sendAck => exact h.ask hpc hret (.inr rfl)
  | closeConnecMain =>
      obtain ⟨gotUp, pendUp, hlaneUp, hreadsUp, -⟩ := hret.toMain
      exact ⟨_, _, _, _, h.leave (hdoing.message_none (by decide)) failed
        ⟨gotUp, pendUp, hlaneUp, hreadsUp⟩⟩
  | runMsg jobid =>
      obtain ⟨job, carriers, hid, hmsg, hcurrent⟩ := hdoing.runMsg_some
      have hresult : code = 1 ∨ failed = true := by
        rcases hret.code with ⟨h, -⟩ | ⟨-, h⟩
        · exact .inl h
        · exact .inr h
      have hmap : s.current.map (fun (e : Execution) =>
          { e with reports := e.reports ++ [(pkg.wire, code)] }) =
          some ⟨job, carriers, some true, [((SetterCall.jobRun jobid).wire, code)]⟩ := by
        rw [hcurrent, hmsg]
        rfl
      refine h.work hpc hret rfl trivial ?_ ?_ h.reported
      · show List.map _ (s.executed ++ (s.current.map _).toList) = _
        rw [hmap, Conn.executions, hcurrent]
        simp
      · show Doing failed (.wait jobid) (s.current.map _)
        rw [hmap]
        exact .wait hid hresult
  | doneMsg =>
      have hlate : s.execFailed = true → code ≠ 1 := by
        intro hf hone
        have hfailed := hret.kept hf
        rcases hret.code with ⟨-, hff⟩ | ⟨hcode, -⟩
        · rw [hfailed] at hff
          cases hff
        · omega
      obtain ⟨e, jobid, hcurrent, hid, hreported⟩ := hdoing.reported hlate
      have hmap : s.current.map (fun (e : Execution) =>
          { e with reports := e.reports ++ [(pkg.wire, code)] }) =
          some { e with reports := e.reports ++ [(pkg.wire, code)] } := by
        rw [hcurrent]
        rfl
      refine h.work hpc hret rfl trivial ?_ .command ?_
      · show List.map _ (s.executed ++ (s.current.map _).toList ++ [] ) = _
        rw [hmap, Conn.executions, hcurrent]
        simp
      · show ∀ e' ∈ s.executed ++ (s.current.map _).toList, _
        rw [hmap]
        intro e' he'
        rcases List.mem_append.mp he' with he' | he'
        · exact h.reported e' he'
        · obtain rfl := List.mem_singleton.mp he'
          exact ⟨jobid, hid, hreported⟩

end Sent

theorem Conn.Holds.sendMsgStep {what : Sends} {st : SendSt} (h : s.Holds up down pend debt)
    (hpc : s.exec = .sendMsg what pkg st) (hr : env.result ≠ .eintr)
    (hfails : s.execFailed = true → IoFails env.result) :
    (s.sendMsgStep env what pkg st).Inv := by
  obtain ⟨gotUp, pendUp, hlaneUp, hreadsUp, hwritesUp⟩ := h.toMain
  rw [hpc] at hwritesUp
  -- A call that fails puts nothing in.
  have hfailing : ∀ {code : Int}, code = -1 ∨ code = 0 →
      (Conn.sent { s with
        toMain := s.toMain ++ []
        execFailed := s.execFailed || decide (code ≠ 1) } env pkg code what).Inv := by
    intro code hcode
    have hf : (s.execFailed || decide (code ≠ 1)) = true := by
      simp
      omega
    refine h.sent hpc ⟨.inr ⟨hcode, hf⟩, fun _ => hf, gotUp, pendUp, ?_, hreadsUp, .inl hf⟩
    rw [List.append_nil]
    exact hlaneUp
  by_cases hfailed : s.execFailed = true
  · obtain ⟨code, hcall, hcode⟩ := (hfails hfailed).sendCall (pkg.mem env.around) st
    unfold Conn.sendMsgStep
    rw [hcall]
    exact hfailing hcode
  · have hpushed := @sendCall_pushed _ env.around _ _ (hwritesUp.resolve_left hfailed) _ hr
    rw [Bool.not_eq_true] at hfailed
    unfold Conn.sendMsgStep
    generalize sendCall (pkg.mem env.around) env.result st = out at hpushed ⊢
    cases hpushed with
    | failed hcode => exact hfailing hcode
    | @more p pend' st' hpend hwrites' =>
        subst hpend
        obtain ⟨got, hlane, hreads, htaken⟩ := h.toExec
        have hphase := h.phase
        have hdoing := h.doing
        rw [hpc] at hreads hphase hdoing
        exact ⟨up, down, pend, debt,
          { h with
            toMain := ⟨gotUp, pend', hlaneUp.push, hreadsUp, .inr hwrites'⟩
            toExec := ⟨got, hlane, hreads, htaken⟩
            phase := hphase
            doing := hdoing.more st' }⟩
    | whole =>
        have hf : (s.execFailed || decide ((1 : Int) ≠ 1)) = false := by simp [hfailed]
        rw [← List.append_nil pendUp] at hlaneUp
        have hkept : s.execFailed = true → (s.execFailed || decide ((1 : Int) ≠ 1)) = true := by
          simp [hfailed]
        exact h.sent hpc
          ⟨.inl ⟨rfl, hf⟩, hkept, gotUp, [], hlaneUp.push, hreadsUp, .inr rfl⟩

/-! ### `exec_server_protocol` -/

theorem Doing.protocol_none {failed : Bool} {st : RecvSt} {current : Option Execution}
    (h : Doing failed (.execServerProtocol st) current) : current = none ∧ failed = false := by
  cases h with
  | execServerProtocol hfailed => exact ⟨rfl, hfailed⟩

/-- The labels move with the bytes. -/
theorem Conn.labels_takeOut (s : Conn) (toExec : List UInt8) :
    (s.takeOut toExec).taken ++ (s.takeOut toExec).carriers = s.taken ++ s.carriers := by
  simp [takeOut]

theorem Conn.takeOut_self (s : Conn) : s.takeOut s.toExec = s := by
  cases s
  simp [takeOut]

theorem Conn.Holds.length_takeOut {p rest : List UInt8} (h : s.Holds up down pend debt)
    (hchan : s.toExec = p ++ rest) :
    (s.takeOut rest).carriers.length = rest.length ∧
      (s.takeOut rest).taken.length = s.taken.length + p.length := by
  have hlen := h.labelled
  rw [hchan, List.length_append] at hlen
  simp [takeOut, hchan, hlen]

theorem Conn.dispatch_checkExecServer (s : Conn) (env : Env) (buf : Msg) :
    s.dispatch env (buf.over SetterCall.checkExecServer.wire) =
      { s with taken := [] }.send .sendAck (setCheckExecServerAck env.stack) := by
  unfold dispatch
  rw [SetterCall.getType_over]
  rfl

theorem Conn.dispatch_job (s : Conn) (env : Env) {job : Job} (h : job.call.Arrived pkg) :
    s.dispatch env pkg =
      { s with exec := .execJob pkg, taken := [], current := some ⟨pkg, s.taken, none, []⟩ } := by
  unfold dispatch
  exact if_pos (arrived_job h).1

/-- A check is answered. -/
theorem Conn.Holds.dispatch_check {p rest : List UInt8} {buf : Msg} {st : RecvSt}
    (h : s.Holds up down pend none) (hpc : s.exec = .execServerProtocol st) (hchan : s.toExec = p ++ rest)
    (hlane : Lane SetterCall.wire [] [] rest pend)
    (hphase : Phase false s.main .acking (up ++ [.checkExecServerAck]) [] pend none) :
    ((s.takeOut rest).dispatch env (buf.over SetterCall.checkExecServer.wire)).Inv := by
  obtain ⟨gotUp, pendUp, hlaneUp, hreadsUp, hwritesUp⟩ := h.toMain
  have hdoing := h.doing
  rw [hpc] at hwritesUp hdoing
  obtain ⟨hnone, hfailed⟩ := hdoing.protocol_none
  obtain rfl : pendUp = [] := hwritesUp.resolve_left (by simp [hfailed])
  obtain ⟨hcarriers, -⟩ := h.length_takeOut hchan
  obtain ⟨-, hrest, -⟩ := hlane.of_nil
  have hnil : (s.takeOut rest).carriers = [] := nil_of_length_eq hcarriers hrest
  have hphase' : Phase s.execFailed s.main .acking (up ++ [.checkExecServerAck]) [] pend none := by
    rw [hfailed]
    exact hphase
  have hdoing' : Doing s.execFailed (.sendMsg .sendAck (setCheckExecServerAck env.stack)
      (.start (setCheckExecServerAck env.stack))) s.current := by
    rw [hnone]
    exact .message (by decide)
  have hlaneUp' := hlaneUp.send (SetterCall.checkExecServerAck).wire_ne_nil
  have hbegun : WritesAt SetterCall.checkExecServerAck.wire (setCheckExecServerAck env.stack)
      (.start (setCheckExecServerAck env.stack)) := writesAt_start .checkExecServerAck env.stack
  rw [Conn.dispatch_checkExecServer]
  refine ⟨up ++ [SetterCall.checkExecServerAck], [], pend, none,
    { toMain := ⟨gotUp, _, hlaneUp', hreadsUp.append hlaneUp _, .inr hbegun⟩
      toExec := ⟨[], hlane, rfl, rfl⟩
      labelled := hcarriers
      writes := h.writes
      phase := hphase'
      labels := .inr ?_
      book := h.book
      doing := hdoing'
      reported := h.reported
      clean := h.clean }⟩
  show ∀ n ∈ [] ++ (s.takeOut rest).carriers, _
  rw [hnil]
  simp

/-- A job is executed, which the last call of `sendJob` has carried. -/
theorem Conn.Holds.dispatch_job {p rest : List UInt8} {buf : Msg} {st : RecvSt}
    {call : SendJob} (h : s.Holds up down pend (some call))
    (hpc : s.exec = .execServerProtocol st) (hchan : s.toExec = p ++ rest)
    (htaken : s.taken.length + p.length = call.job.call.wire.length)
    (hlane : Lane SetterCall.wire [] [] rest pend)
    (hphase : Phase false s.main .working up [] pend none) :
    ((s.takeOut rest).dispatch env (buf.over call.job.call.wire)).Inv := by
  obtain ⟨gotUp, pendUp, hlaneUp, hreadsUp, hwritesUp⟩ := h.toMain
  have hdoing := h.doing
  rw [hpc] at hwritesUp hdoing
  obtain ⟨hnone, hfailed⟩ := hdoing.protocol_none
  obtain ⟨hcarriers, hmore⟩ := h.length_takeOut hchan
  obtain ⟨-, hrest, -⟩ := hlane.of_nil
  have hnil : (s.takeOut rest).carriers = [] := nil_of_length_eq hcarriers hrest
  have harrived : call.job.call.Arrived (buf.over call.job.call.wire) := ⟨buf, rfl⟩
  have hphase' : Phase s.execFailed s.main .working up [] pend none := by
    rw [hfailed]
    exact hphase
  -- All its bytes bear the number of the last call.
  have hbytes : (s.takeOut rest).taken ≠ [] := by
    have hpos := List.length_pos_iff.mpr call.job.call.wire_ne_nil
    exact List.length_pos_iff.mp (by omega)
  have hlabels : ∀ n ∈ (s.takeOut rest).taken, n + 1 = s.sendJobs.length := by
    intro n hn
    rcases h.labels with ⟨-, hdebt⟩ | hlabels
    · cases hdebt
    · refine hlabels n ?_
      rw [← s.labels_takeOut rest]
      exact List.mem_append_left _ hn
  have hbook := h.book.take hbytes hlabels harrived
  rw [Conn.executions, hnone] at hbook
  have hbook' : Book s.sendJobs ((s.executed ++ [(⟨buf.over call.job.call.wire,
      (s.takeOut rest).taken, none, []⟩ : Execution)]).map fun e => (e.pkg, e.carriers)) none := by
    simpa using hbook
  rw [Conn.dispatch_job _ env harrived]
  refine ⟨up, [], pend, none,
    { toMain := ⟨gotUp, pendUp, hlaneUp, hreadsUp, hwritesUp⟩
      toExec := ⟨[], hlane, rfl, rfl⟩
      labelled := hcarriers
      writes := h.writes
      phase := hphase'
      labels := .inr ?_
      book := hbook'
      doing := .execJob (arrived_job harrived).2
      reported := h.reported
      clean := h.clean }⟩
  show ∀ n ∈ [] ++ (s.takeOut rest).carriers, _
  rw [hnil]
  simp

theorem Conn.Holds.execServerProtocolStep {st : RecvSt} (h : s.Holds up down pend debt)
    (hpc : s.exec = .execServerProtocol st) (hr : env.result ≠ .eintr) :
    (s.execServerProtocolStep env st).Inv := by
  obtain ⟨gotUp, pendUp, hlaneUp, hreadsUp, hwritesUp⟩ := h.toMain
  obtain ⟨got, hlane, hreads, htaken⟩ := h.toExec
  have hphase := h.phase
  have hdoing := h.doing
  rw [hpc] at hreads hphase hdoing hwritesUp
  obtain ⟨hnone, hfailed⟩ := hdoing.protocol_none
  have hpulled := recvCall_pulled hlane hreads hr
  unfold Conn.execServerProtocolStep
  generalize recvLoop [env.result] s.toExec st = out at hpulled ⊢
  cases hpulled with
  | @failed code buf hcode =>
      have hne : code ≠ 1 := by omega
      simp only [if_neg hne, Conn.takeOut_self]
      exact ⟨_, _, _, _, h.leave hnone true ⟨gotUp, pendUp, hlaneUp, hreadsUp⟩⟩
  | @more st' p rest hchan hlane' hreads' =>
      obtain ⟨hcarriers, hmore⟩ := h.length_takeOut hchan
      have hdoing' : Doing s.execFailed (.execServerProtocol st') s.current := by
        rw [hnone]
        exact .execServerProtocol hfailed
      refine ⟨up, down, pend, debt,
        { toMain := ⟨gotUp, pendUp, hlaneUp, hreadsUp, hwritesUp⟩
          toExec := ⟨got ++ p, hlane', hreads', ?_⟩
          labelled := hcarriers
          writes := h.writes
          phase := hphase
          labels := ?_
          book := h.book
          doing := hdoing'
          reported := h.reported
          clean := h.clean }⟩
      · rw [List.length_append, ← htaken]
        exact hmore
      · rcases h.labels with hclosed | hlabels
        · exact .inl hclosed
        · refine .inr ?_
          show ∀ n ∈ (s.takeOut rest).taken ++ (s.takeOut rest).carriers, _
          rw [s.labels_takeOut rest]
          exact hlabels
  | @whole c down' buf p rest hdown hchan hframe hlane' =>
      subst hdown
      rw [hfailed] at hphase
      obtain ⟨rfl, ⟨rfl, rfl, hphase'⟩ | ⟨call, rfl, rfl, hphase'⟩⟩ :=
        hphase.take h.writes (fun hnil => by subst hnil; exact hlane'.of_nil.2.2)
      · simp only [if_pos]
        exact h.dispatch_check hpc hchan hlane' hphase'
      · simp only [if_pos]
        refine h.dispatch_job hpc hchan ?_ hlane' hphase'
        rw [htaken, ← List.length_append, hframe]

theorem Conn.Inv.execStep {s' : Conn} (h : s.Inv) (hr : env.result ≠ .eintr)
    (hfails : s.execFailed = true → IoFails env.result) (hs : s.execStep env = some s') :
    s'.Inv := by
  obtain ⟨up, down, pend, debt, h⟩ := h
  unfold Conn.execStep at hs
  cases hpc : s.exec with
  | command =>
      rw [hpc] at hs
      obtain rfl := Option.some.inj hs
      exact h.commandStep hpc
  | sendMsg what pkg st =>
      rw [hpc] at hs
      obtain rfl := Option.some.inj hs
      exact h.sendMsgStep hpc hr hfails
  | execServerProtocol st =>
      rw [hpc] at hs
      obtain rfl := Option.some.inj hs
      exact h.execServerProtocolStep hpc hr
  | execJob pkg =>
      rw [hpc] at hs
      obtain rfl := Option.some.inj hs
      exact h.execJobStep hpc
  | wait jobid =>
      rw [hpc] at hs
      obtain rfl := Option.some.inj hs
      exact h.waitStep hpc
  | closed =>
      rw [hpc] at hs
      cases hs

end Exec

/-! ## Every run -/

theorem inv_of_reach {s : Conn} (h : Reach Conn.step Regular Fresh s) : s.Inv := by
  refine h.invariant ?_ ?_
  · intro s hs
    obtain ⟨stack, rfl⟩ := hs
    exact Conn.inv_init stack
  · intro s a s' _ hinv hregular hs
    cases a with
    | main env => exact hinv.mainStep hregular hs
    | exec env => exact hinv.execStep hregular.1 hregular.2 hs

/-- In every run neither side meets a message it does not expect. What the exec
server executes has been carried by one call of `sendJob`, a later one each
time, that returned 1 and did not put its job back; and it is reported under
the id of that job, once its process is started and once when it has ended, or
once when there is no process. -/
theorem handshake_fits {s : Conn} (h : Reach Conn.step Regular Fresh s) :
    s.mishaps = [] ∧
      (∀ e ∈ s.executions, ∃ n call, CarriedBy s.sendJobs n call e.pkg e.carriers ∧
        (e ∈ s.executed → e.Reported call.job.id) ∧
        (s.current = some e → e.Reporting call.job.id)) ∧
      s.executions.Pairwise fun e e' => ∀ n ∈ e.carriers, ∀ n' ∈ e'.carriers, n < n' := by
  obtain ⟨up, down, pend, debt, h⟩ := inv_of_reach h
  refine ⟨h.clean, ?_, List.pairwise_map.mp h.book.once⟩
  intro e he
  obtain ⟨n, call, hcarried, -⟩ := h.book.carried _ (List.mem_map_of_mem he)
  obtain ⟨-, hid⟩ := arrived_job hcarried.arrived
  refine ⟨n, call, hcarried, ?_, ?_⟩
  · intro hover
    obtain ⟨jobid, hjobid, hreported⟩ := h.reported e hover
    rw [hid] at hjobid
    obtain rfl := Option.some.inj hjobid
    exact hreported
  · intro hcurrent
    have hdoing := h.doing
    rw [hcurrent] at hdoing
    obtain ⟨jobid, hjobid, hreporting⟩ := hdoing.reporting
    rw [hid] at hjobid
    obtain rfl := Option.some.inj hjobid
    exact hreporting

def goWell : Env where
  result := .moved 1000
  stack := Msg.fill 0
  around := fun _ => 0
  job := ⟨7, 0, 0, [108, 115], [47]⟩
  select := .readable
  command := .job
  fork := true
  wait := .exited 3

/-- A job is asked for, comes behind its check, and is executed. -/
def oneJob : List Action :=
  [.exec goWell, .exec goWell, .main goWell, .main goWell, .main goWell, .main goWell,
    .exec goWell, .exec goWell, .main goWell, .main goWell, .exec goWell, .exec goWell,
    .exec goWell, .exec goWell, .exec goWell, .exec goWell]

theorem handshake_fits_oneJob :
    ∃ s : Conn, s.executed.map Execution.fork = [some true] ∧
      (s.mishaps = [] ∧
        (∀ e ∈ s.executions, ∃ n call, CarriedBy s.sendJobs n call e.pkg e.carriers ∧
          (e ∈ s.executed → e.Reported call.job.id) ∧
          (s.current = some e → e.Reporting call.job.id)) ∧
        s.executions.Pairwise fun e e' => ∀ n ∈ e.carriers, ∀ n' ∈ e'.carriers, n < n') := by
  obtain ⟨s, hreach, hone⟩ :
      ∃ s, Reach Conn.step Regular Fresh s ∧ s.executed.map Execution.fork = [some true] :=
    @reach_of_checkedRun _ _ _ _ _ _ oneJob (.init (Msg.fill 0)) _ _ ⟨_, rfl⟩ (by decide +kernel)
  exact ⟨s, hone, handshake_fits hreach⟩

end DistQueue.Handshake
