import DistQueue.Exec.Compatible
import DistQueue.Server.Serving

/-!
# What an exec server has said

The messages that have gone out whole and have not been heard are on the stream
in front of the one that is being written, or has been cut off. So whatever the
handler hears is the next of them, and a report that it hears is one that a call
of `sendMsg` returned 1 for.
-/

namespace DistQueue.Handshake

open DistQueue.Lib

/-- What `attendExecServ` reads in a message is what the exec server put there. -/
theorem receive_report {N : Nat} (buf : Msg) (c : SetterCall) :
    (receiveExecServ (buf.over c.wire) : Pc N).report = c.report := by
  have hread : ∀ hc : c.ArgsOk, c.ReadBack (buf.over c.wire) := c.readBack_over buf
  unfold receiveExecServ
  rw [SetterCall.getType_over]
  cases c with
  | jobRun j | jobDone j e | jobSignaled j e =>
      obtain ⟨hid, hstate, hexit⟩ := hread trivial
      show some (HistOp.changeStateJob _ _ _) = _
      rw [hid, hstate, hexit]
      rfl
  | _ => rfl

/-- The reports of an execution that have gone out whole. -/
def Execution.told (e : Execution) : List HistOp :=
  e.reports.filterMap fun report =>
    if report.2 = 1 then (receiveExecServ ((Msg.fill 0).over report.1) : Pc numQueueMax).report
    else none

/-- What has been told of the job of call `n` of `sendJob`. -/
def Conn.told (s : Conn) (n : Nat) : List HistOp :=
  s.executions.flatMap fun e => if n ∈ e.carriers then e.told else []

/-- One more call of `sendMsg` has returned. -/
theorem Execution.told_reported (e : Execution) (wire : List UInt8) (code : Int) :
    Execution.told { e with reports := e.reports ++ [(wire, code)] } =
      e.told ++ (if code = 1 then
        (receiveExecServ ((Msg.fill 0).over wire) : Pc numQueueMax).report else none).toList := by
  rw [told, List.filterMap_append, told, List.filterMap_cons, List.filterMap_nil]
  dsimp only
  cases (if code = 1 then
    (receiveExecServ ((Msg.fill 0).over wire) : Pc numQueueMax).report else none) <;> rfl

/-! ## The stream to the handler -/

/-- The message that is being written, with what is still to come of it. -/
inductive Writing (failed : Bool) (pc : ExecPc) : Option SetterCall → List UInt8 → Prop
  | nothing : (failed = false → ∀ what pkg st, pc ≠ .sendMsg what pkg st) →
      Writing failed pc none []
  | message {what : Sends} {pkg : Msg} {st : SendSt} {c : SetterCall} {pend : List UInt8} :
      pc = .sendMsg what pkg st → pkg.wire = c.wire → (what.turn ≠ .working → c.report = none) →
      WritesAt pend pkg st → pend.length ≤ c.wire.length → Writing failed pc (some c) pend
  | cut {c : SetterCall} {pend : List UInt8} : failed = true → pend ≠ [] →
      pend.length ≤ c.wire.length → Writing failed pc (some c) pend

/-- `whole` has gone out whole and has not been heard. -/
def Conn.Speaks (s : Conn) (whole : List SetterCall) : Prop :=
  ∃ cut got pend, Writing s.execFailed s.exec cut pend ∧
    Lane SetterCall.wire (whole ++ cut.toList) got s.toMain pend ∧
    s.main.Reads (whole ++ cut.toList) got

section Writing

variable {failed : Bool} {pc : ExecPc} {cut : Option SetterCall} {pend : List UInt8}

theorem Writing.pend_ne (h : Writing failed pc cut pend) (hcut : cut ≠ none) : pend ≠ [] := by
  cases h with
  | nothing => exact absurd rfl hcut
  | message _ _ _ hwrites => exact hwrites.ne_nil
  | cut _ hne => exact hne

theorem Writing.length_le (h : Writing failed pc cut pend) :
    pend.length ≤ (cut.toList.flatMap SetterCall.wire).length := by
  cases h with
  | nothing => exact Nat.zero_le _
  | message _ _ _ _ hle | cut _ _ hle => simpa using hle

end Writing

theorem Conn.speaks_init (stack : Msg) : (Conn.init stack).Speaks [] :=
  ⟨none, [], [], .nothing (fun _ _ _ _ h => by cases h), .empty, readsAt_start [] stack⟩

/-! ## The handler -/

section Main

variable {s s' : Conn} {env : Env} {whole : List SetterCall}

/-- What the handler takes has gone out whole. -/
theorem Writing.heard {failed : Bool} {pc : ExecPc} {cut : Option SetterCall}
    {pend rest : List UInt8} {c : SetterCall} {msgs : List SetterCall}
    (h : Writing failed pc cut pend) (hmsgs : whole ++ cut.toList = c :: msgs)
    (hlane : Lane SetterCall.wire msgs [] rest pend) :
    ∃ whole', whole = c :: whole' ∧ msgs = whole' ++ cut.toList := by
  cases whole with
  | nil =>
      have hcut : cut ≠ none := fun hnone => by rw [hnone] at hmsgs; cases hmsgs
      obtain ⟨m, rfl⟩ := Option.ne_none_iff_exists'.mp hcut
      obtain ⟨-, rfl⟩ := List.cons.inj hmsgs
      exact absurd hlane.of_nil.2.2 (h.pend_ne hcut)
  | cons m whole' =>
      obtain ⟨rfl, rfl⟩ := List.cons.inj hmsgs
      exact ⟨whole', rfl, rfl⟩

/-- The exec server and its stream are left alone. -/
theorem Conn.Speaks.kept (h : s.Speaks whole) (hexec : s'.exec = s.exec)
    (hfailed : s'.execFailed = s.execFailed) (htoMain : s'.toMain = s.toMain)
    (hreads : ∀ msgs got, s.main.Reads msgs got → s'.main.Reads msgs got) : s'.Speaks whole := by
  obtain ⟨cut, got, pend, hwriting, hlane, hmain⟩ := h
  refine ⟨cut, got, pend, ?_, ?_, hreads _ _ hmain⟩
  · rw [hfailed, hexec]
    exact hwriting
  · rw [htoMain]
    exact hlane

theorem Conn.attend_eq (s : Conn) (pkg : Msg) :
    ∃ main mishaps, s.attend pkg = { s with main := main, mishaps := mishaps } ∧
      ∀ msgs, main.Reads msgs [] := by
  unfold Conn.attend
  generalize (receiveExecServ pkg : Pc numQueueMax) = pc
  cases pc with
  | sendJob => exact ⟨.getJob, s.mishaps, rfl, fun _ => rfl⟩
  | changeStateJob => exact ⟨_, s.mishaps, rfl, fun msgs => readsAt_start msgs pkg⟩
  | closed => exact ⟨.closed, s.mishaps, rfl, fun _ => trivial⟩
  | _ => exact ⟨_, _, rfl, fun msgs => readsAt_start msgs pkg⟩

/-- The report the handler hears in a call, if it is one. -/
def Conn.heard (s : Conn) (env : Env) : Option HistOp :=
  match s.main with
  | .attendExecServ st =>
      match recvLoop [env.result] s.toMain st with
      | .ret code pkg _ =>
          if code = 1 then (receiveExecServ pkg : Pc numQueueMax).report else none
      | _ => none
  | _ => none

theorem Conn.Speaks.attendExecServStep {st : RecvSt} (h : s.Speaks whole)
    (hpc : s.main = .attendExecServ st) (hr : env.result ≠ .eintr) :
    ∃ whole', (s.attendExecServStep env st).Speaks whole' ∧
      ((s.attendExecServStep env st).main ≠ .closed →
        whole.filterMap SetterCall.report =
          (s.heard env).toList ++ whole'.filterMap SetterCall.report) := by
  obtain ⟨cut, got, pend, hwriting, hlane, hreads⟩ := h
  rw [hpc] at hreads
  have hpulled := recvCall_pulled hlane hreads hr
  rw [Conn.heard, hpc]
  unfold Conn.attendExecServStep
  dsimp only
  generalize recvLoop [env.result] s.toMain st = out at hpulled ⊢
  cases hpulled with
  | @failed code buf hcode =>
      have hne : code ≠ 1 := by omega
      simp only [if_neg hne]
      exact ⟨whole, ⟨cut, got, pend, hwriting, hlane, trivial⟩, fun hopen => absurd rfl hopen⟩
  | more hchan hlane' hreads' =>
      exact ⟨whole, ⟨cut, _, pend, hwriting, hlane', hreads'⟩, fun _ => rfl⟩
  | @whole c msgs buf p rest hmsgs hchan hframe hlane' =>
      obtain ⟨whole', rfl, rfl⟩ := hwriting.heard hmsgs hlane'
      obtain ⟨main, mishaps, hattend, hmain⟩ :=
        Conn.attend_eq { s with toMain := rest } (buf.over c.wire)
      simp only [if_pos, hattend, receive_report]
      refine ⟨whole', ⟨cut, [], pend, hwriting, hlane', hmain _⟩, fun _ => ?_⟩
      cases hc : c.report <;> simp [hc]

theorem Conn.Speaks.recvAckStep {job : Job} {st : RecvSt} (h : s.Speaks whole)
    (hpc : s.main = .recvAck job st) (hr : env.result ≠ .eintr) :
    ∃ whole', (s.recvAckStep env job st).Speaks whole' ∧
      ((s.recvAckStep env job st).main ≠ .closed →
        whole.filterMap SetterCall.report = whole'.filterMap SetterCall.report) := by
  obtain ⟨cut, got, pend, hwriting, hlane, hreads⟩ := h
  rw [hpc] at hreads
  have hpulled := recvCall_pulled hlane hreads hr
  unfold Conn.recvAckStep
  generalize recvLoop [env.result] s.toMain st = out at hpulled ⊢
  cases hpulled with
  | @failed code buf hcode =>
      simp only [if_pos hcode]
      exact ⟨whole, ⟨cut, got, pend, hwriting, hlane, trivial⟩, fun hopen => absurd rfl hopen⟩
  | more hchan hlane' hreads' =>
      exact ⟨whole, ⟨cut, _, pend, hwriting, hlane', hreads'⟩, fun _ => rfl⟩
  | @whole c msgs buf p rest hmsgs hchan hframe hlane' =>
      obtain ⟨whole', rfl, rfl⟩ := hwriting.heard hmsgs hlane'
      have hcode : ¬ ((1 : Int) = -1 ∨ (1 : Int) = 0) := by decide
      simp only [if_neg hcode]
      split
      · exact ⟨whole', ⟨cut, [], pend, hwriting, hlane', trivial⟩, fun hopen => absurd rfl hopen⟩
      · next hack =>
          refine ⟨whole', ⟨cut, [], pend, hwriting, hlane', rfl⟩, fun _ => ?_⟩
          -- What has the type of the answer is no report.
          rw [SetterCall.getType_over, not_not] at hack
          have hnone : c.report = none := by
            cases c with
            | checkExecServerAck => rfl
            | _ => cases hack
          rw [List.filterMap_cons_none hnone]

theorem Conn.Speaks.mainStep (h : s.Speaks whole) (hr : env.result ≠ .eintr)
    (hs : s.mainStep env = some s') :
    ∃ whole', s'.Speaks whole' ∧
      (s'.main ≠ .closed → whole.filterMap SetterCall.report =
        (s.heard env).toList ++ whole'.filterMap SetterCall.report) := by
  unfold Conn.mainStep at hs
  cases hpc : s.main with
  | attendExecServ st =>
      rw [hpc] at hs
      obtain rfl := Option.some.inj hs
      exact h.attendExecServStep hpc hr
  | getJob =>
      rw [hpc] at hs
      obtain rfl := Option.some.inj hs
      refine ⟨whole, h.kept rfl rfl rfl fun msgs got hgot => ?_, fun _ => ?_⟩
      · rw [hpc] at hgot
        exact hgot
      · rw [Conn.heard, hpc]
        rfl
  | checkServerStatus job pkg st =>
      rw [hpc] at hs
      obtain rfl := Option.some.inj hs
      have hreads : ∀ msgs got, s.main.Reads msgs got → got = [] := fun msgs got hgot => by
        rw [hpc] at hgot
        exact hgot
      rw [Conn.heard, hpc]
      unfold Conn.checkServerStatusStep
      dsimp only
      split
      · exact ⟨whole, h.kept rfl rfl rfl hreads, fun _ => rfl⟩
      · split
        · exact ⟨whole, h.kept rfl rfl rfl fun _ _ _ => trivial, fun hopen => absurd rfl hopen⟩
        · exact ⟨whole, h.kept rfl rfl rfl hreads, fun _ => rfl⟩
  | select job pkg =>
      rw [hpc] at hs
      obtain rfl := Option.some.inj hs
      rw [Conn.heard, hpc]
      unfold Conn.selectStep
      split
      · refine ⟨whole, h.kept rfl rfl rfl fun msgs got hgot => ?_, fun _ => rfl⟩
        rw [hpc] at hgot
        obtain rfl : got = [] := hgot
        exact readsAt_start msgs pkg
      · exact ⟨whole, h.kept rfl rfl rfl fun _ _ _ => trivial, fun hopen => absurd rfl hopen⟩
      · exact ⟨whole, h.kept rfl rfl rfl fun _ _ _ => trivial, fun hopen => absurd rfl hopen⟩
  | recvAck job st =>
      rw [hpc] at hs
      obtain rfl := Option.some.inj hs
      rw [Conn.heard, hpc]
      exact h.recvAckStep hpc hr
  | sendJob job pkg st =>
      rw [hpc] at hs
      obtain rfl := Option.some.inj hs
      have hreads : ∀ msgs got, s.main.Reads msgs got → got = [] := fun msgs got hgot => by
        rw [hpc] at hgot
        exact hgot
      rw [Conn.heard, hpc]
      unfold Conn.sendJobStep
      dsimp only
      split
      · exact ⟨whole, h.kept rfl rfl rfl hreads, fun _ => rfl⟩
      · split
        · exact ⟨whole, h.kept rfl rfl rfl fun _ _ _ => trivial, fun hopen => absurd rfl hopen⟩
        · refine ⟨whole, h.kept rfl rfl rfl fun msgs got hgot => ?_, fun _ => rfl⟩
          obtain rfl := hreads msgs got hgot
          exact readsAt_start msgs env.stack
  | closed =>
      rw [hpc] at hs
      cases hs

end Main

/-! ## The exec server -/

section Exec

variable {s s' : Conn} {env : Env} {whole : List SetterCall} {up down : List SetterCall}
  {pend : List UInt8} {debt : Option SendJob}

def ExecPc.Sending : ExecPc → Prop
  | .sendMsg _ _ _ => True
  | _ => False

theorem Writing.quiet {failed failed' : Bool} {pc pc' : ExecPc} {cut : Option SetterCall}
    (h : Writing failed pc cut pend) (hpc : ¬ pc.Sending) (hpc' : ¬ pc'.Sending)
    (hfailed : failed = true → failed' = true) : Writing failed' pc' cut pend := by
  cases h with
  | nothing => exact .nothing fun _ what pkg st heq => hpc' (heq ▸ trivial)
  | message hsends => exact absurd (hsends ▸ trivial) hpc
  | cut hf hne hle => exact .cut (hfailed hf) hne hle

/-- Between messages. -/
theorem Conn.Speaks.quiet (h : s.Speaks whole) (hpc : ¬ s.exec.Sending) (hpc' : ¬ s'.exec.Sending)
    (hfailed : s.execFailed = true → s'.execFailed = true) (htoMain : s'.toMain = s.toMain)
    (hmain : s'.main = s.main) : s'.Speaks whole := by
  obtain ⟨cut, got, pend, hwriting, hlane, hreads⟩ := h
  refine ⟨cut, got, pend, hwriting.quiet hpc hpc' hfailed, ?_, ?_⟩
  · rw [htoMain]
    exact hlane
  · rw [hmain]
    exact hreads

/-- A message is begun. -/
theorem Conn.Speaks.begin (h : s.Speaks whole) (hpc : ¬ s.exec.Sending) {what : Sends}
    {c : SetterCall} {m : Msg} (hwhat : what.turn ≠ .working → c.report = none)
    (hpc' : s'.exec = .sendMsg what (c.apply m) (.start (c.apply m)))
    (hfailed : s'.execFailed = s.execFailed) (htoMain : s'.toMain = s.toMain)
    (hmain : s'.main = s.main) : s'.Speaks whole := by
  obtain ⟨cut, got, pend, hwriting, hlane, hreads⟩ := h
  rw [Speaks, hfailed, htoMain, hmain]
  by_cases hf : s.execFailed = true
  · refine ⟨cut, got, pend, ?_, hlane, hreads⟩
    cases hwriting with
    | nothing => exact .nothing fun hfalse => absurd (hf.symm.trans hfalse) Bool.noConfusion
    | message hsends => exact absurd (hsends ▸ trivial) hpc
    | cut hf' hne hle => exact .cut hf' hne hle
  · cases hwriting with
    | nothing =>
        rw [Option.toList_none, List.append_nil] at hlane hreads
        exact ⟨some c, got, c.wire,
          .message hpc' (c.apply_wire m) hwhat (writesAt_start c m) (Nat.le_refl _),
          hlane.send c.wire_ne_nil, hreads.append hlane c⟩
    | message hsends => exact absurd (hsends ▸ trivial) hpc
    | cut hf' => exact absurd hf' hf

/-- What the exec server has told in a step, of the execution it is in. -/
inductive Conn.Tells (s s' : Conn) : List HistOp → Prop
  | rests : s'.executions = s.executions → Tells s s' []
  | begins {e : Execution} : s'.executions = s.executions ++ [e] → e.told = [] → Tells s s' []
  | tells {e e' : Execution} {ops : List HistOp} : s.current = some e →
      s'.executions = s.executed ++ [e'] → e'.carriers = e.carriers → e'.pkg = e.pkg →
      e'.told = e.told ++ ops → Tells s s' ops

theorem Doing.doneMsg_some {failed : Bool} {msg : Msg} {st : SendSt} {current : Option Execution}
    (h : Doing failed (.sendMsg .doneMsg msg st) current) : ∃ e, current = some e := by
  cases h with
  | message hwhat => exact absurd rfl hwhat
  | done | errorFork => exact ⟨_, rfl⟩

/-- Behind a call of `sendMsg` that went through, or failed. -/
theorem Conn.sent_speaks (h : s.Holds up down pend debt) {what : Sends} {pkg : Msg} {st : SendSt}
    (hpc : s.exec = .sendMsg what pkg st) {toMain : List UInt8} {failed : Bool} {code : Int}
    {ops : List HistOp}
    (hops : what.turn = .working → ops = (if code = 1 then
      (receiveExecServ ((Msg.fill 0).over pkg.wire) : Pc numQueueMax).report else none).toList)
    (hnone : what.turn ≠ .working → ops = []) :
    Conn.Tells s (Conn.sent { s with toMain := toMain, execFailed := failed } env pkg code what)
        ops ∧
      ¬ (Conn.sent { s with toMain := toMain, execFailed := failed }
          env pkg code what).exec.Sending ∧
      (Conn.sent { s with toMain := toMain, execFailed := failed } env pkg code what).toMain =
        toMain ∧
      (Conn.sent { s with toMain := toMain, execFailed := failed } env pkg code what).execFailed =
        failed ∧
      (Conn.sent { s with toMain := toMain, execFailed := failed } env pkg code what).main =
        s.main := by
  have hdoing := h.doing
  rw [hpc] at hdoing
  cases what with
  | jobRequest | sendAck =>
      rw [hnone (by decide)]
      dsimp only [Conn.sent]
      split
      · exact ⟨.rests rfl, id, rfl, rfl, rfl⟩
      · exact ⟨.rests rfl, id, rfl, rfl, rfl⟩
  | closeConnecMain =>
      rw [hnone (by decide)]
      exact ⟨.rests rfl, id, rfl, rfl, rfl⟩
  | runMsg jobid =>
      obtain ⟨job, carriers, -, -, hcurrent⟩ := hdoing.runMsg_some
      refine ⟨@Conn.Tells.tells _ _ _ ⟨job, carriers, some true, [(pkg.wire, code)]⟩ _ hcurrent
        ?_ rfl rfl ?_, id, rfl, rfl, rfl⟩
      · show s.executed ++ (s.current.map _).toList = _
        rw [hcurrent]
        rfl
      · rw [hops rfl]
        exact Execution.told_reported ⟨job, carriers, some true, []⟩ pkg.wire code
  | doneMsg =>
      obtain ⟨e, hcurrent⟩ := hdoing.doneMsg_some
      refine ⟨@Conn.Tells.tells _ _ e { e with reports := e.reports ++ [(pkg.wire, code)] } _
        hcurrent ?_ rfl rfl ?_, id, rfl, rfl, rfl⟩
      · show s.executed ++ (s.current.map _).toList ++ [] = _
        rw [hcurrent]
        simp
      · rw [hops rfl]
        exact Execution.told_reported e pkg.wire code

theorem Conn.Speaks.sendMsgStep (h : s.Speaks whole) (hinv : s.Inv) {what : Sends} {pkg : Msg}
    {st : SendSt} (hpc : s.exec = .sendMsg what pkg st) (hr : env.result ≠ .eintr)
    (hfails : s.execFailed = true → IoFails env.result) :
    ∃ whole' ops, (s.sendMsgStep env what pkg st).Speaks whole' ∧
      Conn.Tells s (s.sendMsgStep env what pkg st) ops ∧
      whole'.filterMap SetterCall.report = whole.filterMap SetterCall.report ++ ops := by
  obtain ⟨up, down, pendDown, debt, hinv⟩ := hinv
  obtain ⟨cut, got, pend, hwriting, hlane, hreads⟩ := h
  -- A call that fails leaves the message cut.
  have hfailing : ∀ {code : Int}, code = -1 ∨ code = 0 →
      ∃ whole' ops, (Conn.sent { s with
          toMain := s.toMain ++ []
          execFailed := s.execFailed || decide (code ≠ 1) } env pkg code what).Speaks whole' ∧
        Conn.Tells s (Conn.sent { s with
          toMain := s.toMain ++ []
          execFailed := s.execFailed || decide (code ≠ 1) } env pkg code what) ops ∧
        whole'.filterMap SetterCall.report = whole.filterMap SetterCall.report ++ ops := by
    intro code hcode
    have hone : code ≠ 1 := by omega
    have hf : (s.execFailed || decide (code ≠ 1)) = true := by simp [hone]
    rw [List.append_nil]
    obtain ⟨htells, hquiet, htoMain, hfailed, hmain⟩ :=
      @Conn.sent_speaks s env up down pendDown debt hinv what pkg st hpc s.toMain
        (s.execFailed || decide (code ≠ 1)) code [] (fun _ => by rw [if_neg hone]; rfl) fun _ => rfl
    refine ⟨whole, [], ⟨cut, got, pend, ?_, ?_, ?_⟩, htells, (List.append_nil _).symm⟩
    · rw [hfailed, hf]
      cases hwriting with
      | nothing => exact .nothing fun h => by cases h
      | message _ _ _ hwrites hle => exact .cut rfl hwrites.ne_nil hle
      | cut _ hne hle => exact .cut rfl hne hle
    · rw [htoMain]
      exact hlane
    · rw [hmain]
      exact hreads
  by_cases hfailed : s.execFailed = true
  · obtain ⟨code, hcall, hcode⟩ := (hfails hfailed).sendCall (pkg.mem env.around) st
    unfold Conn.sendMsgStep
    rw [hcall]
    exact hfailing hcode
  · rw [Bool.not_eq_true] at hfailed
    cases hwriting with
    | nothing hnot => exact absurd hpc (hnot hfailed what pkg st)
    | cut hf => rw [hfailed] at hf; cases hf
    | @message what' pkg' st' c pend hpc' hwire hwhat hwrites hle =>
        obtain ⟨rfl, rfl, rfl⟩ := ExecPc.sendMsg.inj (hpc.symm.trans hpc')
        have hpushed := @sendCall_pushed _ env.around _ _ hwrites _ hr
        unfold Conn.sendMsgStep
        generalize sendCall (pkg.mem env.around) env.result st = out at hpushed ⊢
        cases hpushed with
        | failed hcode => exact hfailing hcode
        | @more p pend' st' hpend hwrites' =>
            subst hpend
            have hle' : pend'.length ≤ c.wire.length := by
              rw [List.length_append] at hle
              omega
            exact ⟨whole, [], ⟨some c, got, pend', .message rfl hwire hwhat hwrites' hle',
              hlane.push, hreads⟩, .rests rfl, (List.append_nil _).symm⟩
        | whole =>
            rw [← List.append_nil pend] at hlane
            have hreport : (receiveExecServ ((Msg.fill 0).over pkg.wire) : Pc numQueueMax).report =
                c.report := by rw [hwire, receive_report]
            obtain ⟨htells, hquiet, htoMain, hfailed', hmain⟩ :=
              @Conn.sent_speaks s env up down pendDown debt hinv what pkg st hpc (s.toMain ++ pend)
                (s.execFailed || decide ((1 : Int) ≠ 1)) 1 c.report.toList
                (fun _ => by rw [if_pos rfl, hreport])
                fun hne => by rw [hwhat hne]; rfl
            refine ⟨whole ++ [c], _, ⟨none, got, [], .nothing ?_, ?_, ?_⟩, htells, ?_⟩
            · exact fun _ what pkg st heq => hquiet (heq ▸ trivial)
            · rw [htoMain, Option.toList_none, List.append_nil]
              exact hlane.push
            · rw [hmain, Option.toList_none, List.append_nil]
              exact hreads
            · rw [List.filterMap_append]
              cases hc : c.report <;> simp [hc]

theorem Conn.Speaks.execServerProtocolStep (h : s.Speaks whole) (hinv : s.Inv) {st : RecvSt}
    (hpc : s.exec = .execServerProtocol st) :
    (s.execServerProtocolStep env st).Speaks whole ∧
      Conn.Tells s (s.execServerProtocolStep env st) [] := by
  obtain ⟨up, down, pend, debt, hinv⟩ := hinv
  have hdoing := hinv.doing
  rw [hpc] at hdoing
  obtain ⟨hnone, -⟩ := hdoing.protocol_none
  have hquiet : ¬ s.exec.Sending := by rw [hpc]; exact id
  unfold Conn.execServerProtocolStep
  split
  · exact ⟨h.quiet hquiet id id rfl rfl, .rests rfl⟩
  · next code pkg toExec _ =>
      dsimp only
      split
      · unfold Conn.dispatch
        dsimp only
        split_ifs
        · refine ⟨h.quiet hquiet id id rfl rfl,
            @Conn.Tells.begins _ _ ⟨pkg, (s.takeOut toExec).taken, none, []⟩ ?_ rfl⟩
          simp [Conn.executions, Conn.takeOut, hnone]
        · exact ⟨@Conn.Speaks.begin s _ whole h hquiet .sendAck .checkExecServerAck env.stack
            (fun _ => rfl) rfl rfl rfl rfl, .rests rfl⟩
        · exact ⟨h.quiet hquiet id id rfl rfl, .rests rfl⟩
      · exact ⟨h.quiet hquiet id (fun _ => rfl) rfl rfl, .rests rfl⟩
  · exact ⟨h.quiet hquiet id id rfl rfl, .rests rfl⟩

theorem Conn.Speaks.execJobStep (h : s.Speaks whole) (hinv : s.Inv) {pkg : Msg}
    (hpc : s.exec = .execJob pkg) :
    (s.execJobStep env pkg).Speaks whole ∧ Conn.Tells s (s.execJobStep env pkg) [] := by
  obtain ⟨up, down, pend, debt, hinv⟩ := hinv
  have hdoing := hinv.doing
  rw [hpc] at hdoing
  obtain ⟨carriers, jobid, hid, hcurrent⟩ := hdoing.execJob_some
  have hquiet : ¬ s.exec.Sending := by rw [hpc]; exact id
  have htells : ∀ {s' : Conn}, s'.executed = s.executed → s'.current = (s.forked env.fork).current →
      Conn.Tells s s' [] := fun {s'} hexecuted hcurrent' => by
    refine @Conn.Tells.tells _ _ _ ⟨pkg, carriers, some env.fork, []⟩ _ hcurrent ?_ rfl rfl rfl
    rw [Conn.executions, hexecuted, hcurrent', Conn.forked, hcurrent]
    rfl
  unfold Conn.execJobStep
  dsimp only
  rw [hid]
  split
  · exact ⟨@Conn.Speaks.begin s _ whole h hquiet (.runMsg jobid) (.jobRun jobid) env.stack
      (fun hne => absurd rfl hne) rfl rfl rfl rfl, htells rfl rfl⟩
  · exact ⟨@Conn.Speaks.begin s _ whole h hquiet .doneMsg (.jobDone jobid 41) env.stack
      (fun hne => absurd rfl hne) rfl rfl rfl rfl, htells rfl rfl⟩

/-- What has gone out whole is what has been told, message by message. -/
theorem Conn.Speaks.execStep (h : s.Speaks whole) (hinv : s.Inv) (hr : env.result ≠ .eintr)
    (hfails : s.execFailed = true → IoFails env.result) (hs : s.execStep env = some s') :
    ∃ whole' ops, s'.Speaks whole' ∧ Conn.Tells s s' ops ∧
      whole'.filterMap SetterCall.report = whole.filterMap SetterCall.report ++ ops := by
  have hsame : ∀ {s' : Conn}, s'.Speaks whole ∧ Conn.Tells s s' [] →
      ∃ whole' ops, s'.Speaks whole' ∧ Conn.Tells s s' ops ∧
        whole'.filterMap SetterCall.report = whole.filterMap SetterCall.report ++ ops :=
    fun hs' => ⟨whole, [], hs'.1, hs'.2, (List.append_nil _).symm⟩
  unfold Conn.execStep at hs
  cases hpc : s.exec with
  | command =>
      rw [hpc] at hs
      obtain rfl := Option.some.inj hs
      have hquiet : ¬ s.exec.Sending := by rw [hpc]; exact id
      unfold Conn.commandStep
      split
      · exact hsame ⟨@Conn.Speaks.begin s _ whole h hquiet .jobRequest .jobReq env.stack
          (fun _ => rfl) rfl rfl rfl rfl, .rests rfl⟩
      · exact hsame ⟨@Conn.Speaks.begin s _ whole h hquiet .closeConnecMain
          .closedConnectionExecServer env.stack (fun _ => rfl) rfl rfl rfl rfl, .rests rfl⟩
      · exact hsame ⟨h, .rests rfl⟩
  | sendMsg what pkg st =>
      rw [hpc] at hs
      obtain rfl := Option.some.inj hs
      exact h.sendMsgStep hinv hpc hr hfails
  | execServerProtocol st =>
      rw [hpc] at hs
      obtain rfl := Option.some.inj hs
      exact hsame (h.execServerProtocolStep hinv hpc)
  | execJob pkg =>
      rw [hpc] at hs
      obtain rfl := Option.some.inj hs
      exact hsame (h.execJobStep hinv hpc)
  | wait jobid =>
      rw [hpc] at hs
      obtain rfl := Option.some.inj hs
      have hquiet : ¬ s.exec.Sending := by rw [hpc]; exact id
      unfold Conn.waitStep
      split
      · next status _ =>
          exact hsame ⟨@Conn.Speaks.begin s _ whole h hquiet .doneMsg (.jobDone jobid status)
            env.stack (fun hne => absurd rfl hne) rfl rfl rfl rfl, .rests rfl⟩
      · next sig _ =>
          exact hsame ⟨@Conn.Speaks.begin s _ whole h hquiet .doneMsg (.jobSignaled jobid sig)
            env.stack (fun hne => absurd rfl hne) rfl rfl rfl rfl, .rests rfl⟩
  | closed =>
      rw [hpc] at hs
      cases hs

end Exec

/-! ## The job that was sent last -/

section Latest

variable {s s' : Conn} {env : Env} {whole : List SetterCall} {e : Execution} {n : Nat}
  {ops : List HistOp}

/-- While the handler listens, the exec server has no other job than the one
that was sent last. -/
def Conn.OnLatest (s : Conn) : Prop :=
  s.main ≠ .closed → ∀ e ∈ s.current, ∀ m ∈ e.carriers, m + 1 = s.sendJobs.length

/-- What has been told of the job that was sent last. -/
def Conn.latest (s : Conn) : List HistOp := s.told (s.sendJobs.length - 1)

/-- Nothing is told of a job before it is sent. -/
theorem Conn.Inv.told_nil (h : s.Inv) (hn : s.sendJobs.length ≤ n) : s.told n = [] := by
  obtain ⟨up, down, pend, debt, h⟩ := h
  refine List.flatMap_eq_nil_iff.mpr fun e he => if_neg fun hmem => ?_
  obtain ⟨m, call, hcarried, -⟩ := h.book.carried _ (List.mem_map_of_mem he)
  obtain rfl := hcarried.labels n hmem
  exact absurd (List.getElem?_eq_some_iff.mp hcarried.numbered).1 (Nat.not_lt.mpr hn)

/-- No two executions are of one call of `sendJob`. -/
theorem Conn.Inv.told_eq (h : s.Inv) (he : e ∈ s.executions) (hn : n ∈ e.carriers) :
    s.told n = e.told := by
  obtain ⟨up, down, pend, debt, h⟩ := h
  obtain ⟨before, after, hsplit⟩ := List.append_of_mem he
  have honce : s.executions.Pairwise fun e e' => ∀ n ∈ e.carriers, ∀ n' ∈ e'.carriers, n < n' :=
    List.pairwise_map.mp h.book.once
  rw [hsplit, List.pairwise_append, List.pairwise_cons] at honce
  obtain ⟨-, ⟨hafter, -⟩, hbefore⟩ := honce
  have hnil : ∀ l : List Execution, (∀ e' ∈ l, n ∉ e'.carriers) →
      (l.flatMap fun e => if n ∈ e.carriers then e.told else []) = [] := fun l hl =>
    List.flatMap_eq_nil_iff.mpr fun e' he' => if_neg (hl e' he')
  rw [told, hsplit, List.flatMap_append, List.flatMap_cons, if_pos hn,
    hnil before fun e' he' hn' =>
      Nat.lt_irrefl n (hbefore e' he' e List.mem_cons_self n hn' n hn),
    hnil after fun e' he' hn' => Nat.lt_irrefl n (hafter e' he' n hn n hn')]
  simp

theorem Conn.Inv.mem_current (h : s.Inv) (he : s.current = some e) : e.carriers ≠ [] := by
  obtain ⟨up, down, pend, debt, h⟩ := h
  have hmem : e ∈ s.executions := by simp [executions, he]
  obtain ⟨m, call, hcarried, -⟩ := h.book.carried _ (List.mem_map_of_mem hmem)
  exact hcarried.bytes

/-- What is told is told of the job that was sent last. -/
theorem Conn.Tells.latest (h : Conn.Tells s s' ops) (hinv : s.Inv) (hon : s.OnLatest)
    (hopen : s.main ≠ .closed) (hsends : s'.sendJobs = s.sendJobs) :
    s'.latest = s.latest ++ ops := by
  rw [Conn.latest, Conn.latest, hsends, Conn.told, Conn.told]
  cases h with
  | rests hsame => rw [hsame, List.append_nil]
  | begins hnew htold =>
      rw [hnew, List.flatMap_append, List.flatMap_cons, List.flatMap_nil, htold]
      split <;> rfl
  | @tells e e' ops hcurrent hnew hcarriers _ htold =>
      obtain ⟨m, hm⟩ := List.exists_mem_of_ne_nil _ (hinv.mem_current hcurrent)
      have hlast := hon hopen e hcurrent m hm
      obtain rfl : s.sendJobs.length - 1 = m := by omega
      rw [hnew, Conn.executions, hcurrent, Option.toList_some, List.flatMap_append,
        List.flatMap_append, List.flatMap_cons, List.flatMap_nil, List.flatMap_cons,
        List.flatMap_nil, hcarriers, if_pos hm, if_pos hm, htold, List.append_nil,
        List.append_nil, List.append_assoc]

/-- An execution keeps what it was begun with, and what it has told. -/
theorem Conn.Tells.grows (h : Conn.Tells s s' ops) (he : e ∈ s.executions) :
    ∃ e' ∈ s'.executions, e'.carriers = e.carriers ∧ e'.pkg = e.pkg ∧ e.told <+: e'.told := by
  cases h with
  | rests hsame => exact ⟨e, hsame ▸ he, rfl, rfl, List.prefix_refl _⟩
  | begins hnew =>
      exact ⟨e, hnew ▸ List.mem_append_left _ he, rfl, rfl, List.prefix_refl _⟩
  | @tells e₀ e' ops hcurrent hnew hcarriers hpkg htold =>
      rw [Conn.executions, hcurrent] at he
      rcases List.mem_append.mp he with he | he
      · exact ⟨e, hnew ▸ List.mem_append_left _ he, rfl, rfl, List.prefix_refl _⟩
      · obtain rfl := List.mem_singleton.mp he
        exact ⟨e', by rw [hnew]; simp, hcarriers, hpkg, htold ▸ List.prefix_append _ _⟩

/-! ### Steps -/

theorem Conn.open_of_step (hs : s.mainStep env = some s') : s.main ≠ .closed := by
  intro hclosed
  rw [Conn.mainStep, hclosed] at hs
  cases hs

/-- A call of the handler is none of the exec server's. While it goes on it
counts no call of `sendJob`, unless it has sent a job. -/
theorem Conn.mainStep_exec (hs : s.mainStep env = some s') :
    s'.exec = s.exec ∧ s'.executions = s.executions ∧ s'.current = s.current ∧
      (s'.main ≠ .closed → (∀ job pkg st, s.main ≠ .sendJob job pkg st) →
        s'.sendJobs = s.sendJobs) := by
  unfold Conn.mainStep at hs
  cases hpc : s.main with
  | attendExecServ st =>
      rw [hpc] at hs
      obtain rfl := Option.some.inj hs
      unfold Conn.attendExecServStep
      split
      · exact ⟨rfl, rfl, rfl, fun _ _ => rfl⟩
      · next code pkg toMain _ =>
          dsimp only
          split
          · obtain ⟨main, mishaps, hattend, -⟩ := Conn.attend_eq { s with toMain := toMain } pkg
            rw [hattend]
            exact ⟨rfl, rfl, rfl, fun _ _ => rfl⟩
          · exact ⟨rfl, rfl, rfl, fun _ _ => rfl⟩
      · exact ⟨rfl, rfl, rfl, fun _ _ => rfl⟩
  | getJob =>
      rw [hpc] at hs
      obtain rfl := Option.some.inj hs
      exact ⟨rfl, rfl, rfl, fun _ _ => rfl⟩
  | checkServerStatus job pkg st =>
      rw [hpc] at hs
      obtain rfl := Option.some.inj hs
      unfold Conn.checkServerStatusStep
      dsimp only
      split
      · exact ⟨rfl, rfl, rfl, fun _ _ => rfl⟩
      · split
        · exact ⟨rfl, rfl, rfl, fun hopen => absurd rfl hopen⟩
        · exact ⟨rfl, rfl, rfl, fun _ _ => rfl⟩
  | select job pkg =>
      rw [hpc] at hs
      obtain rfl := Option.some.inj hs
      unfold Conn.selectStep
      split
      · exact ⟨rfl, rfl, rfl, fun _ _ => rfl⟩
      · exact ⟨rfl, rfl, rfl, fun hopen => absurd rfl hopen⟩
      · exact ⟨rfl, rfl, rfl, fun hopen => absurd rfl hopen⟩
  | recvAck job st =>
      rw [hpc] at hs
      obtain rfl := Option.some.inj hs
      unfold Conn.recvAckStep
      split
      · exact ⟨rfl, rfl, rfl, fun _ _ => rfl⟩
      · dsimp only
        split_ifs
        · exact ⟨rfl, rfl, rfl, fun hopen => absurd rfl hopen⟩
        · exact ⟨rfl, rfl, rfl, fun hopen => absurd rfl hopen⟩
        · exact ⟨rfl, rfl, rfl, fun _ _ => rfl⟩
      · exact ⟨rfl, rfl, rfl, fun _ _ => rfl⟩
  | sendJob job pkg st =>
      rw [hpc] at hs
      obtain rfl := Option.some.inj hs
      unfold Conn.sendJobStep
      dsimp only
      split
      · exact ⟨rfl, rfl, rfl, fun _ _ => rfl⟩
      · split <;> exact ⟨rfl, rfl, rfl, fun _ hnot => absurd rfl (hnot job pkg st)⟩
  | closed =>
      rw [hpc] at hs
      cases hs

/-- With a job under way, the exec server is waiting and has told everything. -/
theorem Conn.Inv.sending (h : s.Inv) {job : Job} {pkg : Msg} {st : SendSt}
    (hpc : s.main = .sendJob job pkg st) : s.current = none ∧ s.toMain = [] := by
  obtain ⟨up, down, pend, debt, h⟩ := h
  obtain ⟨gotUp, pendUp, hlane, -⟩ := h.toMain
  have hphase := h.phase
  have hdoing := h.doing
  rw [hpc] at hphase
  cases hphase with
  | sending hturn =>
      refine ⟨?_, hlane.of_nil.2.1⟩
      generalize s.exec = pc at hturn hdoing
      generalize s.current = current at hdoing
      cases pc with
      | execServerProtocol st => exact hdoing.protocol_none.1
      | closed =>
          cases hdoing
          rfl
      | sendMsg what msg st => cases what <;> rcases hturn with hturn | hturn <;> cases hturn
      | command | execJob | wait => rcases hturn with hturn | hturn <;> cases hturn
  | checking hchecks _ => exact hchecks.elim
  | acked hawaits _ => exact hawaits.elim

/-- On a stream that is empty nothing whole is left. -/
theorem Conn.Speaks.silent (h : s.Speaks whole) (htoMain : s.toMain = []) : whole = [] := by
  obtain ⟨cut, got, pend, hwriting, hlane, -⟩ := h
  have hbytes := congrArg List.length hlane.bytes
  have hle := hwriting.length_le
  rw [htoMain, List.nil_append, List.flatMap_append, List.length_append,
    List.length_append] at hbytes
  cases whole with
  | nil => rfl
  | cons c whole =>
      -- The handler has not all of the first one.
      have hcut := hlane.cut c rfl
      rw [List.flatMap_cons, List.length_append] at hbytes
      omega

/-- A step of the exec server is none of the handler's. What it executes behind
it, it executed before, or has taken from the stream. -/
theorem Conn.execStep_main (hs : s.execStep env = some s') :
    s'.main = s.main ∧ s'.sendJobs = s.sendJobs ∧
      ∀ e' ∈ s'.current, (∃ e ∈ s.current, e'.carriers = e.carriers) ∨
        ∃ toExec, e'.carriers = (s.takeOut toExec).taken := by
  have hsame : ∀ {s' : Conn}, s'.current = s.current → ∀ e' ∈ s'.current,
      (∃ e ∈ s.current, e'.carriers = e.carriers) ∨
        ∃ toExec, e'.carriers = (s.takeOut toExec).taken :=
    fun hcurrent e' he' => .inl ⟨e', hcurrent ▸ he', rfl⟩
  have hmap : ∀ {f : Execution → Execution}, (∀ e, (f e).carriers = e.carriers) →
      ∀ e' ∈ s.current.map f, (∃ e ∈ s.current, e'.carriers = e.carriers) ∨
        ∃ toExec, e'.carriers = (s.takeOut toExec).taken := by
    intro f hf e' he'
    obtain ⟨e, he, rfl⟩ := Option.map_eq_some_iff.mp he'
    exact .inl ⟨e, he, hf e⟩
  unfold Conn.execStep at hs
  split at hs
  · injection hs with hs
    subst hs
    unfold Conn.commandStep
    split <;> exact ⟨rfl, rfl, hsame rfl⟩
  · next what pkg st _ =>
      injection hs with hs
      subst hs
      simp only [Conn.sendMsgStep]
      split
      · exact ⟨rfl, rfl, hsame rfl⟩
      · cases what with
        | jobRequest | sendAck =>
            dsimp only [Conn.sent]
            split <;> exact ⟨rfl, rfl, hsame rfl⟩
        | closeConnecMain => exact ⟨rfl, rfl, hsame rfl⟩
        | runMsg jobid => exact ⟨rfl, rfl, hmap fun _ => rfl⟩
        | doneMsg => exact ⟨rfl, rfl, fun e' he' => by cases he'⟩
  · injection hs with hs
    subst hs
    simp only [Conn.execServerProtocolStep]
    split
    · exact ⟨rfl, rfl, hsame rfl⟩
    · next code pkg toExec _ =>
        split
        · unfold Conn.dispatch
          dsimp only
          split_ifs
          · refine ⟨rfl, rfl, fun e' he' => .inr ⟨toExec, ?_⟩⟩
            obtain rfl := Option.some.inj he'
            rfl
          · exact ⟨rfl, rfl, hsame rfl⟩
          · exact ⟨rfl, rfl, hsame rfl⟩
        · exact ⟨rfl, rfl, hsame rfl⟩
    · exact ⟨rfl, rfl, hsame rfl⟩
  · injection hs with hs
    subst hs
    simp only [Conn.execJobStep]
    split_ifs
    · split
      · exact ⟨rfl, rfl, hmap fun _ => rfl⟩
      · exact ⟨rfl, rfl, fun e' he' => by cases he'⟩
    · split <;> exact ⟨rfl, rfl, hmap fun _ => rfl⟩
  · injection hs with hs
    subst hs
    unfold Conn.waitStep
    split <;> exact ⟨rfl, rfl, hsame rfl⟩
  · cases hs

theorem Conn.OnLatest.execStep (h : s.OnLatest) (hinv : s.Inv) (hinv' : s'.Inv)
    (hs : s.execStep env = some s') : s'.OnLatest := by
  obtain ⟨up, down, pend, debt, hinv⟩ := hinv
  -- What is begun has the labels of a job that is on its way.
  have hbegun : ∀ {toExec : List UInt8} {e : Execution}, e.carriers = (s.takeOut toExec).taken →
      s'.current = some e → s'.sendJobs = s.sendJobs → s.main ≠ .closed →
        ∀ m ∈ e.carriers, m + 1 = s'.sendJobs.length := by
    intro toExec e hcarriers hcurrent hsends hopen m hm
    obtain ⟨up', down', pend', debt', hinv'⟩ := hinv'
    have hmem : e ∈ s'.executions := by simp [executions, hcurrent]
    obtain ⟨n, call, hcarried, -⟩ := hinv'.book.carried _ (List.mem_map_of_mem hmem)
    obtain rfl := hcarried.labels m hm
    have hlt := (List.getElem?_eq_some_iff.mp hcarried.numbered).1
    have hlabel := hinv.labels_of_open hopen m (by
      rw [← s.labels_takeOut toExec, ← hcarriers]
      exact List.mem_append_left _ hm)
    rw [hsends] at hlt ⊢
    cases debt with
    | none => simp at hlabel; omega
    | some call => simpa using hlabel
  obtain ⟨hmain, hsends, hcurrent⟩ := Conn.execStep_main hs
  intro hopen e' he' m hm
  rw [hmain] at hopen
  rcases hcurrent e' he' with ⟨e, he, hcarriers⟩ | ⟨toExec, hcarriers⟩
  · rw [hsends]
    exact h hopen e he m (hcarriers ▸ hm)
  · exact hbegun hcarriers he' hsends hopen m hm

theorem Conn.OnLatest.mainStep (h : s.OnLatest) (hinv : s.Inv) (hs : s.mainStep env = some s') :
    s'.OnLatest := by
  obtain ⟨-, -, hcurrent, hsends⟩ := Conn.mainStep_exec hs
  intro hopen' e he m hm
  rw [hcurrent] at he
  have hopen := Conn.open_of_step hs
  by_cases hsending : ∃ job pkg st, s.main = .sendJob job pkg st
  · obtain ⟨job, pkg, st, hpc⟩ := hsending
    rw [(hinv.sending hpc).1] at he
    cases he
  · rw [hsends hopen' fun job pkg st hpc => hsending ⟨job, pkg, st, hpc⟩]
    exact h hopen e he m hm

end Latest

/-! ## The order of the reports -/

section Order

variable {e : Execution} {jobid : UInt16} {before after : List HistOp} {op : HistOp}

theorem told_of_wire (c : SetterCall) (code : Int) (rest : List (List UInt8 × Int))
    (fork : Option Bool) (pkg : Msg) (carriers : List Nat) :
    Execution.told ⟨pkg, carriers, fork, (c.wire, code) :: rest⟩ =
      (if code = 1 then c.report else none).toList ++
        Execution.told ⟨pkg, carriers, fork, rest⟩ := by
  rw [Execution.told, List.filterMap_cons, receive_report]
  dsimp only
  cases (if code = 1 then c.report else none) <;> rfl

/-- The start comes first, and the end is told of nothing that has not been told
to run. -/
theorem Execution.comesNext (h : e.Reported jobid ∨ e.Reporting jobid)
    (htold : e.told = before ++ op :: after) : ComesNext jobid before op := by
  obtain ⟨pkg, carriers, fork, reports⟩ := e
  -- A first report that stands alone.
  have hone : ∀ {c : SetterCall} {code : Int}, ComesNext jobid [] (c.report.getD op) →
      (if code = 1 then c.report else none).toList = before ++ op :: after →
      ComesNext jobid before op := by
    intro c code hnext hlist
    split at hlist
    · cases hc : c.report with
      | none =>
          rw [hc] at hlist
          cases before <;> cases hlist
      | some op' =>
          rw [hc, Option.toList_some] at hlist
          cases before with
          | nil =>
              obtain ⟨rfl, -⟩ := List.cons.inj hlist
              rw [hc] at hnext
              exact hnext
          | cons _ rest => cases rest <;> cases hlist
    · cases before <;> cases hlist
  have hrun : ComesNext jobid [] (.changeStateJob jobid JobState.run.toByte 0) :=
    ⟨rfl, .inl ⟨rfl, rfl⟩⟩
  rcases h with (⟨-, last, code, code', hlast, hcode, hreports⟩ | ⟨-, code, hreports⟩) |
    (hreports | ⟨-, code, hreports⟩)
  · obtain rfl : reports = _ := hreports
    obtain ⟨c, hc, hnext⟩ : ∃ c : SetterCall, last = c.wire ∧
        ∀ op ∈ c.report, ComesNext jobid [.changeStateJob jobid JobState.run.toByte 0] op := by
      obtain ⟨status, rfl | rfl⟩ := hlast
      · exact ⟨_, rfl, fun op hop => by
          obtain rfl := Option.some.inj hop
          exact ⟨rfl, rfl, .inl rfl⟩⟩
      · exact ⟨_, rfl, fun op hop => by
          obtain rfl := Option.some.inj hop
          exact ⟨rfl, rfl, .inr rfl⟩⟩
    rw [hc, told_of_wire, told_of_wire] at htold
    by_cases hcode' : code' = 1
    · rw [if_pos (hcode hcode'), if_pos hcode'] at htold
      cases hreport : c.report with
      | none =>
          rw [hreport] at htold
          exact @hone (.jobRun jobid) 1 hrun (by simpa [told] using htold)
      | some last =>
          rw [hreport] at htold
          rcases eq_of_pair htold with ⟨rfl, rfl⟩ | ⟨rfl, rfl⟩
          · exact hrun
          · exact hnext _ hreport
    · rw [if_neg hcode'] at htold
      exact @hone (.jobRun jobid) code hrun (by simpa [told] using htold)
  · obtain rfl : reports = _ := hreports
    rw [told_of_wire] at htold
    exact @hone (.jobDone jobid 41) code ⟨rfl, .inr ⟨rfl, rfl⟩⟩ (by simpa [told] using htold)
  · obtain rfl : reports = [] := hreports
    cases before <;> cases htold
  · obtain rfl : reports = _ := hreports
    rw [told_of_wire] at htold
    exact @hone (.jobRun jobid) code hrun (by simpa [told] using htold)

end Order

end DistQueue.Handshake
