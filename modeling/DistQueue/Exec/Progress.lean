import DistQueue.Exec.Compatible

/-!
# An exchange comes to its end

Between two commands of the exec server the two ends of a connection make a
bounded number of calls, and they are never both left waiting for the other.
The first comes from a budget. A byte costs two with the end that has still to
put it in and one in the stream; a message that asks for an answer is paid for
with the answer's price; and what may set off another message is read off where
the two ends stand and whether anything is in the streams, so that no step has
to look into the future.
-/

namespace DistQueue.Handshake

open DistQueue.Lib

/-! ## The budget -/

/-- The calls the handler may still make until it is back at its loop. -/
def MainPc.budget : MainPc → Nat
  | .closed => 0
  | .attendExecServ _ => 20
  | .sendJob _ _ st => 2 * st.toSend + 21
  | .recvAck _ _ => 2 * sizeofMsg + 22
  | .select _ _ => 2 * sizeofMsg + 23
  | .checkServerStatus _ _ st => 2 * st.toSend + 2 * sizeofMsg + 24
  | .getJob => 2 * sizeofMsg + 2 * sizeofHeader + 25

/-- Those the exec server may make until its next command; `checked` says that
a check may come before the job. -/
def ExecPc.budget (checked : Bool) : ExecPc → Nat
  | .closed | .command => 0
  | .sendMsg .closeConnecMain _ st | .sendMsg .doneMsg _ st => 2 * st.toSend + 1
  | .wait _ => 20
  | .sendMsg (.runMsg _) _ st => 2 * st.toSend + 21
  | .execJob _ => 40
  | .execServerProtocol _ => if checked then 53 else 41
  | .sendMsg .sendAck _ st => 2 * st.toSend + 42
  | .sendMsg .jobRequest _ st => 2 * st.toSend + 54

/-- A check may still come to an exec server that waits. -/
def Conn.checked (s : Conn) : Bool :=
  match s.main with
  | .attendExecServ _ => s.toExec.isEmpty
  | .getJob | .checkServerStatus _ _ _ => true
  | .select _ _ | .recvAck _ _ | .closed => !s.toExec.isEmpty
  | .sendJob _ _ _ => false

/-- The exec server may still have the handler hear a request for a job. -/
def ExecPc.asks (toMain toExec : List UInt8) : ExecPc → Bool
  | .sendMsg what _ _ => what.turn ≠ .working
  | .execServerProtocol _ => toExec.isEmpty
  | .closed => !toMain.isEmpty
  | .command | .execJob _ | .wait _ => false

def Conn.asked (s : Conn) : Bool :=
  match s.main with
  | .attendExecServ _ => s.exec.asks s.toMain s.toExec
  | _ => false

def Conn.budget (s : Conn) : Nat :=
  s.main.budget + s.exec.budget s.checked + (if s.asked then MainPc.getJob.budget else 0) +
    s.toMain.length + s.toExec.length

theorem ExecPc.budget_mono (pc : ExecPc) {b b' : Bool} (h : b = true → b' = true) :
    pc.budget b ≤ pc.budget b' := by
  cases pc with
  | execServerProtocol st => cases b <;> cases b' <;> simp_all [budget]
  | sendMsg what msg st => cases what <;> exact Nat.le_refl _
  | _ => exact Nat.le_refl _

theorem ExecPc.budget_le (pc : ExecPc) (b b' : Bool) : pc.budget b ≤ pc.budget b' + 12 := by
  cases pc with
  | execServerProtocol st => cases b <;> cases b' <;> simp [budget]
  | sendMsg what msg st => cases what <;> exact Nat.le_add_right _ _
  | _ => exact Nat.le_add_right _ _

/-! ## What a call takes -/

section Calls

/-- What a call of `send` makes of the bytes that are left, whatever they are. -/
inductive Spent (st : SendSt) : List UInt8 × SendOut → Prop
  | failed {code : Int} : code = -1 ∨ code = 0 → Spent st ([], .ret code)
  | more {bs : List UInt8} {st' : SendSt} : bs ≠ [] → bs.length + st'.toSend = st.toSend →
      Spent st (bs, .blocked st')
  | whole {bs : List UInt8} : bs.length = st.toSend → Spent st (bs, .ret 1)

theorem sendCall_spent (mem : Int → UInt8) {r : IoResult} (hr : r ≠ .eintr) (st : SendSt) :
    Spent st (sendCall mem r st) := by
  cases r with
  | error => exact .failed (.inl rfl)
  | eintr => exact absurd rfl hr
  | moved n =>
      by_cases hn : n = 0
      · rw [sendCall, if_pos hn]
        exact .failed (.inr rfl)
      · obtain ⟨k, hk⟩ : ∃ k, min n st.toSend = k := ⟨_, rfl⟩
        have hlength : (window mem st.ptr k).length = k := by simp [window]
        rw [sendCall, if_neg hn]
        simp only [hk, SendSt.test, SendSt.advance]
        by_cases hleft : st.toSend - k = 0
        · rw [if_pos hleft]
          exact .whole (by omega)
        · rw [if_neg hleft]
          refine .more (fun hnil => ?_) ?_
          · rw [hnil] at hlength
            simp at hlength
            omega
          · show (window mem st.ptr k).length + (st.toSend - k) = st.toSend
            omega

/-- What a call of `recv` leaves in the stream. -/
inductive Taken (chan : List UInt8) : RecvOut → Prop
  | ret {code : Int} {buf : Msg} {rest : List UInt8} : rest.length ≤ chan.length →
      Taken chan (.ret code buf rest)
  | more {st : RecvSt} {rest : List UInt8} : rest.length < chan.length →
      Taken chan (.blocked st rest)
  | overflow : Taken chan .overflow

theorem recvCall_taken {r : IoResult} (hr : r ≠ .eintr) (chan : List UInt8) (st : RecvSt) :
    Taken chan (recvLoop [r] chan st) := by
  by_cases hz : st.toRecv = 0
  · rw [recvLoop_zero hz]
    exact .ret (Nat.le_refl _)
  · cases r with
    | error =>
        rw [recvLoop_error hz]
        exact .ret (Nat.le_refl _)
    | eintr => exact absurd rfl hr
    | moved n =>
        obtain ⟨k, hk⟩ : ∃ k, min n (min st.toRecv chan.length) = k := ⟨_, rfl⟩
        rw [recvLoop_moved hz hk]
        split
        · exact .ret (Nat.le_refl _)
        · next hk0 =>
            have hless : (chan.drop k).length < chan.length := by
              rw [List.length_drop]
              omega
            cases st.store (chan.take k) with
            | none => exact .overflow
            | some st' =>
                simp only [recvLoop_single]
                split
                · exact .ret (Nat.le_of_lt hless)
                · exact .more hless

end Calls

section Budget

variable {s s' : Conn}

theorem Conn.budget_lt (hasked : s'.asked = true → s.asked = true)
    (h : s'.main.budget + s'.exec.budget s'.checked + s'.toMain.length + s'.toExec.length <
      s.main.budget + s.exec.budget s.checked + s.toMain.length + s.toExec.length) :
    s'.budget < s.budget := by
  unfold Conn.budget
  cases hs' : s'.asked with
  | false =>
      simp only [Bool.false_eq_true, if_false]
      omega
  | true =>
      rw [hasked hs']
      simp only [if_true]
      omega

theorem Conn.not_asked (h : ∀ st, s.main ≠ .attendExecServ st) : s.asked = false := by
  unfold asked
  split <;> simp_all

theorem ExecPc.asks_mono {pc : ExecPc} {toMain toMain' toExec : List UInt8}
    (h : toMain' ≠ [] → toMain ≠ []) :
    pc.asks toMain' toExec = true → pc.asks toMain toExec = true := by
  cases pc with
  | closed => simpa [asks] using h
  | _ => exact id

/-- The handler goes on, and the exec server has no more to expect. -/
theorem Conn.budget_main (hexec : s'.exec = s.exec) (hasked : s'.asked = true → s.asked = true)
    (hchecked : s'.checked = true → s.checked = true)
    (h : s'.main.budget + s'.toMain.length + s'.toExec.length <
      s.main.budget + s.toMain.length + s.toExec.length) : s'.budget < s.budget := by
  refine Conn.budget_lt hasked ?_
  have hle := s.exec.budget_mono hchecked
  rw [hexec]
  omega

/-- The handler leaves. -/
theorem Conn.budget_close (hexec : s'.exec = s.exec) (hmain : s'.main = .closed)
    (hopen : 20 ≤ s.main.budget) (htoMain : s'.toMain.length ≤ s.toMain.length)
    (htoExec : s'.toExec.length ≤ s.toExec.length) : s'.budget < s.budget := by
  have hnot : s'.asked = false := Conn.not_asked fun st h => by
    rw [hmain] at h
    cases h
  refine Conn.budget_lt (fun h => by rw [hnot] at h; cases h) ?_
  have hle := s.exec.budget_le s'.checked s.checked
  rw [hexec, hmain, MainPc.budget]
  omega

theorem ExecPc.listens_cases {pc : ExecPc} (h : pc.turn.Listens) :
    (∃ st, pc = .execServerProtocol st) ∨ pc = .closed := by
  cases pc with
  | execServerProtocol st => exact .inl ⟨st, rfl⟩
  | closed => exact .inr rfl
  | sendMsg what msg st => cases what <;> rcases h with h | h <;> cases h
  | _ => exact h.not_working.elim

end Budget

/-! ## The handler -/

section Main

variable {s : Conn} {env : Env} {up down : List SetterCall} {pend : List UInt8}
  {debt : Option SendJob} {job : Job} {pkg : Msg}

theorem Conn.Holds.attend_spends {st : RecvSt} (h : s.Holds up down pend debt)
    (hpc : s.main = .attendExecServ st) (hr : env.result ≠ .eintr) :
    (s.attendExecServStep env st).budget < s.budget := by
  obtain ⟨got, pendUp, hlane, hreads, hwritesUp⟩ := h.toMain
  have hphase := h.phase
  rw [hpc] at hreads hphase
  have hpulled := recvCall_pulled hlane hreads hr
  have htaken := recvCall_taken hr s.toMain st
  have hopen : 20 ≤ s.main.budget := by rw [hpc]; exact Nat.le_refl _
  -- A call that leaves the handler at its loop, with less in the stream.
  have hmore : ∀ {st' : RecvSt} {rest : List UInt8}, rest.length < s.toMain.length →
      (Conn.budget { s with main := .attendExecServ st', toMain := rest }) < s.budget := by
    intro st' rest hless
    refine Conn.budget_main rfl ?_ ?_ ?_
    · simp only [Conn.asked, hpc]
      exact ExecPc.asks_mono fun _ hnil => by
        rw [hnil] at hless
        cases hless
    · simp only [Conn.checked, hpc]
      exact id
    · rw [hpc]
      simp only [MainPc.budget]
      omega
  unfold Conn.attendExecServStep
  generalize recvLoop [env.result] s.toMain st = out at hpulled htaken ⊢
  cases hpulled with
  | @failed code buf hcode =>
      have hne : code ≠ 1 := by omega
      simp only [if_neg hne]
      exact Conn.budget_close rfl rfl hopen (Nat.le_refl _) (Nat.le_refl _)
  | more hchan hlane' hreads' =>
      cases htaken with
      | more hless => exact hmore hless
  | @whole c up' buf p rest hup hchan hframe hlane' =>
      subst hup
      have hne : p ≠ [] := fun hnil => by
        have hcut := hlane.cut c rfl
        rw [← hframe, hnil, List.append_nil] at hcut
        exact Nat.lt_irrefl _ hcut
      have hless : rest.length < s.toMain.length := by
        have := List.length_pos_iff.mpr hne
        rw [hchan, List.length_append]
        omega
      simp only [if_pos]
      rcases hphase.hear with ⟨hreport, -⟩ | ⟨rfl, rfl, rfl, rfl, hturn⟩ | ⟨rfl, -⟩
      · rw [attend_report hreport]
        exact hmore hless
      · rw [attend_jobReq]
        obtain ⟨-, -, rfl⟩ := hlane'.of_nil
        have hlistens : s.exec.turn.Listens := hturn.listens fun hasking hfailed => by
          rw [hfailed] at hwritesUp
          exact hwritesUp.not_sending (by decide) hasking
        obtain ⟨gotDown, hdown, -⟩ := h.toExec
        have htoExec := hdown.of_nil.2.1
        have htoMain : s.toMain ≠ [] := fun hnil => by rw [hnil] at hless; cases hless
        have hasked : s.asked = true := by
          simp only [Conn.asked, hpc]
          rcases ExecPc.listens_cases hlistens with ⟨st', hexec⟩ | hexec
          · simp [hexec, htoExec, ExecPc.asks]
          · simp [hexec, htoMain, ExecPc.asks]
        have hchecked : s.checked = true := by simp [Conn.checked, hpc, htoExec]
        have hnot : Conn.asked { s with toMain := rest, main := .getJob } = false :=
          Conn.not_asked fun _ h => by cases h
        unfold Conn.budget
        rw [hasked, hchecked, hnot, hpc]
        simp only [MainPc.budget, Conn.checked, Bool.false_eq_true, if_true, if_false]
        omega
      · rw [attend_closed]
        exact Conn.budget_close rfl rfl hopen (Nat.le_of_lt hless) (Nat.le_refl _)

theorem toSend_start (c : SetterCall) (m : Msg) :
    (SendSt.start (c.apply m)).toSend = c.size := SetterCall.size_apply m c

theorem Conn.getJob_spends (hpc : s.main = .getJob) :
    (s.getJobStep env).budget < s.budget := by
  unfold Conn.getJobStep
  refine Conn.budget_main rfl (fun h => ?_) ?_ ?_
  · rw [Conn.not_asked fun _ h => by cases h] at h
    cases h
  · simp [Conn.checked, hpc]
  · rw [hpc]
    have hsize : (SendSt.start (setCheckExecServer env.stack)).toSend = sizeofHeader :=
      toSend_start .checkExecServer env.stack
    simp only [MainPc.budget, hsize]
    omega

/-- A call of `send` of the handler that leaves it in its loop. -/
theorem Conn.budget_putIn {pc : MainPc} (st st' : SendSt) {bs : List UInt8}
    (hasked : Conn.asked { s.putIn bs with main := pc } = false)
    (hchecked : Conn.checked { s.putIn bs with main := pc } = true → s.checked = true)
    (hpc : s.main.budget + 2 * st'.toSend = pc.budget + 2 * st.toSend) (hne : bs ≠ [])
    (hlength : bs.length + st'.toSend = st.toSend) :
    (Conn.budget { s.putIn bs with main := pc }) < s.budget := by
  refine Conn.budget_main rfl (fun h => ?_) hchecked ?_
  · rw [hasked] at h
    cases h
  · have hpos := List.length_pos_iff.mpr hne
    simp only [Conn.putIn, List.length_append]
    omega

theorem Conn.checkServerStatus_spends {st : SendSt} (hpc : s.main = .checkServerStatus job pkg st)
    (hr : env.result ≠ .eintr) : (s.checkServerStatusStep env job pkg st).budget < s.budget := by
  have hspent := sendCall_spent (pkg.mem env.around) hr st
  have hchecked : s.checked = true := by simp [Conn.checked, hpc]
  unfold Conn.checkServerStatusStep
  generalize sendCall (pkg.mem env.around) env.result st = out at hspent ⊢
  cases hspent with
  | failed hcode =>
      simp only [if_pos hcode, Conn.putIn_nil]
      refine Conn.budget_close rfl rfl ?_ (Nat.le_refl _) (Nat.le_refl _)
      rw [hpc, MainPc.budget]
      omega
  | @more bs st' hne hlength =>
      refine Conn.budget_putIn st st' (Conn.not_asked fun _ h => by cases h)
        (fun _ => hchecked) ?_ hne hlength
      rw [hpc, MainPc.budget, MainPc.budget]
      omega
  | @whole bs hlength =>
      show (Conn.budget { s.putIn bs with main := .select job pkg }) < s.budget
      refine Conn.budget_main rfl (fun h => ?_) (fun _ => hchecked) ?_
      · rw [Conn.not_asked fun _ h => by cases h] at h
        cases h
      · rw [hpc]
        simp only [Conn.putIn, MainPc.budget, List.length_append]
        omega

theorem Conn.select_spends (hpc : s.main = .select job pkg) :
    (s.selectStep env job pkg).budget < s.budget := by
  have hopen : 20 ≤ s.main.budget := by rw [hpc, MainPc.budget]; omega
  unfold Conn.selectStep
  cases env.select with
  | readable =>
      refine Conn.budget_main rfl (fun h => ?_) ?_ ?_
      · rw [Conn.not_asked fun _ h => by cases h] at h
        cases h
      · simp only [Conn.checked, hpc]
        exact id
      · rw [hpc]
        simp only [MainPc.budget]
        omega
  | timeout => exact Conn.budget_close rfl rfl hopen (Nat.le_refl _) (Nat.le_refl _)
  | error => exact Conn.budget_close rfl rfl hopen (Nat.le_refl _) (Nat.le_refl _)

theorem Conn.recvAck_spends {st : RecvSt} (hpc : s.main = .recvAck job st)
    (hr : env.result ≠ .eintr) : (s.recvAckStep env job st).budget < s.budget := by
  have hopen : 20 ≤ s.main.budget := by rw [hpc, MainPc.budget]; omega
  have htaken := recvCall_taken hr s.toMain st
  unfold Conn.recvAckStep
  generalize recvLoop [env.result] s.toMain st = out at htaken ⊢
  cases htaken with
  | @more st' rest hless =>
      refine Conn.budget_main rfl (fun h => ?_) ?_ ?_
      · rw [Conn.not_asked fun _ h => by cases h] at h
        cases h
      · simp only [Conn.checked, hpc]
        exact id
      · rw [hpc]
        simp only [MainPc.budget]
        omega
  | overflow => exact Conn.budget_close rfl rfl hopen (Nat.le_refl _) (Nat.le_refl _)
  | @ret code buf rest hle =>
      dsimp only
      split
      · exact Conn.budget_close rfl rfl hopen hle (Nat.le_refl _)
      · split
        · exact Conn.budget_close rfl rfl hopen hle (Nat.le_refl _)
        · have hsize : (SendSt.start (job.msg env.stack)).toSend ≤ sizeofMsg := by
            rw [Job.msg_eq, toSend_start]
            exact (SetterCall.sized_size _).2.1
          refine Conn.budget_main rfl (fun h => ?_) (fun h => by cases h) ?_
          · rw [Conn.not_asked fun _ h => by cases h] at h
            cases h
          · rw [hpc]
            simp only [Conn.sendJob, MainPc.budget]
            omega

theorem Conn.Holds.sendJob_spends {st : SendSt} (h : s.Holds up down pend debt)
    (hpc : s.main = .sendJob job pkg st) (hr : env.result ≠ .eintr) :
    (s.sendJobStep env job pkg st).budget < s.budget := by
  have hspent := sendCall_spent (pkg.mem env.around) hr st
  have hphase := h.phase
  rw [hpc] at hphase
  unfold Conn.sendJobStep
  generalize sendCall (pkg.mem env.around) env.result st = out at hspent ⊢
  cases hspent with
  | failed hcode =>
      simp only [if_pos hcode, Conn.putIn_nil]
      refine Conn.budget_close rfl rfl ?_ (Nat.le_refl _) (Nat.le_refl _)
      rw [hpc, MainPc.budget]
      omega
  | @more bs st' hne hlength =>
      refine Conn.budget_putIn st st' (Conn.not_asked fun _ h => by cases h)
        (fun h => by cases h) ?_ hne hlength
      rw [hpc, MainPc.budget, MainPc.budget]
      omega
  | @whole bs hlength =>
      obtain ⟨got, pendUp, hup, -⟩ := h.toMain
      have hwrites := h.writes
      rw [hpc] at hwrites
      obtain ⟨off, n, hst, hn, -⟩ := hwrites
      have hne : bs ≠ [] := List.length_pos_iff.mp (by
        rw [hlength, hst]
        exact Nat.pos_of_ne_zero hn)
      cases hphase with
      | checking hchecks _ => exact hchecks.elim
      | acked hawaits _ => exact hawaits.elim
      | sending hturn =>
          have htoMain := hup.of_nil.2.1
          show (Conn.budget { s.putIn bs with
            main := .attendExecServ (.start env.stack)
            sendJobs := s.sendJobs ++ [⟨job, 1, false⟩] }) < s.budget
          refine Conn.budget_main rfl (fun h => ?_) (fun h => ?_) ?_
          · rcases ExecPc.listens_cases hturn with ⟨st', hexec⟩ | hexec
            · simp [Conn.asked, ExecPc.asks, Conn.putIn, hexec, hne] at h
            · simp [Conn.asked, ExecPc.asks, Conn.putIn, hexec, htoMain] at h
          · simp [Conn.checked, Conn.putIn, hne] at h
          · rw [hpc]
            simp only [Conn.putIn, MainPc.budget, List.length_append]
            omega

theorem Conn.Holds.mainStep_spends {s' : Conn} (h : s.Holds up down pend debt)
    (hr : env.result ≠ .eintr) (hs : s.mainStep env = some s') : s'.budget < s.budget := by
  unfold Conn.mainStep at hs
  cases hpc : s.main with
  | attendExecServ st =>
      rw [hpc] at hs
      exact Option.some.inj hs ▸ h.attend_spends hpc hr
  | getJob =>
      rw [hpc] at hs
      exact Option.some.inj hs ▸ Conn.getJob_spends hpc
  | checkServerStatus job pkg st =>
      rw [hpc] at hs
      exact Option.some.inj hs ▸ Conn.checkServerStatus_spends hpc hr
  | select job pkg =>
      rw [hpc] at hs
      exact Option.some.inj hs ▸ Conn.select_spends hpc
  | recvAck job st =>
      rw [hpc] at hs
      exact Option.some.inj hs ▸ Conn.recvAck_spends hpc hr
  | sendJob job pkg st =>
      rw [hpc] at hs
      exact Option.some.inj hs ▸ h.sendJob_spends hpc hr
  | closed =>
      rw [hpc] at hs
      cases hs

end Main

/-! ## The exec server -/

section Exec

variable {s : Conn} {env : Env} {up down : List SetterCall} {pend : List UInt8}
  {debt : Option SendJob} {pkg : Msg}

/-- The exec server goes on, and the handler has no more to expect. -/
theorem Conn.budget_exec {s s' : Conn} (hmain : s'.main = s.main)
    (hasked : s'.asked = true → s.asked = true)
    (h : s'.exec.budget s'.checked + s'.toMain.length + s'.toExec.length <
      s.exec.budget s.checked + s.toMain.length + s.toExec.length) : s'.budget < s.budget := by
  refine Conn.budget_lt hasked ?_
  rw [hmain]
  omega

/-- It leaves. -/
theorem Conn.budget_leave {s s' : Conn} (hmain : s'.main = s.main) (hexec : s'.exec = .closed)
    (hasked : s'.asked = true → s.asked = true)
    (htoExec : s'.toExec.length ≤ s.toExec.length)
    (h : s'.toMain.length < s.exec.budget s.checked + s.toMain.length) :
    s'.budget < s.budget := by
  refine Conn.budget_exec hmain hasked ?_
  rw [hexec, ExecPc.budget]
  omega

theorem Conn.asked_mono {s s' : Conn} (hmain : s'.main = s.main)
    (h : ∀ st, s.main = .attendExecServ st → s'.exec.asks s'.toMain s'.toExec = true →
      s.exec.asks s.toMain s.toExec = true) : s'.asked = true → s.asked = true := by
  unfold asked
  rw [hmain]
  cases hpc : s.main with
  | attendExecServ st => exact h st hpc
  | _ => exact id

theorem Conn.not_asked_exec {s : Conn} (h : s.exec.Quiet) : s.asked = false := by
  unfold asked
  cases s.main with
  | attendExecServ st =>
      generalize s.exec = pc at h ⊢
      cases pc with
      | command | execJob | wait => rfl
      | _ => exact h.elim
  | _ => rfl

theorem Conn.checked_congr {s s' : Conn} (hmain : s'.main = s.main)
    (htoExec : s'.toExec = s.toExec) : s'.checked = s.checked := by
  unfold checked
  rw [hmain, htoExec]

/-- To an exec server that answers a check no other will come. -/
theorem Conn.Holds.not_checked (h : s.Holds up down pend debt) (hturn : s.exec.turn = .acking)
    (hfailed : s.execFailed = false) : s.checked = false := by
  obtain ⟨got, hdown, -⟩ := h.toExec
  have hphase := h.phase
  rw [hturn, hfailed] at hphase
  unfold Conn.checked
  generalize s.main = main at hphase ⊢
  cases hphase with
  | idle _ hidle => rcases hidle with h | h | h <;> cases h
  | asked _ hasking => rcases hasking with ⟨h, -⟩ | h | h <;> cases h
  | leaving _ hleaving => rcases hleaving with h | h <;> cases h
  | taking hlistens | checking _ hlistens | sending hlistens | carried hlistens =>
      rcases hlistens with h | h <;> cases h
  | acked hawaits _ =>
      rw [hdown.of_nil.2.1]
      cases main with
      | select | recvAck => rfl
      | _ => exact hawaits.elim
  | ended hleft =>
      cases hleft with
      | nothing =>
          rw [hdown.of_nil.2.1]
          rfl
      | check hlistens | cut hlistens | job hlistens => rcases hlistens with h | h <;> cases h

theorem Conn.Holds.sent_spends {what : Sends} {st : SendSt} {bs : List UInt8} {code : Int}
    {failed : Bool} (h : s.Holds up down pend debt) (hpc : s.exec = .sendMsg what pkg st)
    (hle : bs.length ≤ st.toSend)
    (hcode : (code = -1 ∨ code = 0) ∨ s.execFailed = false) :
    (Conn.sent { s with toMain := s.toMain ++ bs, execFailed := failed } env pkg code
      what).budget < s.budget := by
  -- The messages of a report are followed by no request.
  have hworks : ∀ {s' : Conn}, s'.exec.Quiet → s'.main = s.main →
      s'.exec.budget s'.checked + bs.length + 1 ≤ s.exec.budget s.checked →
      s'.toMain = s.toMain ++ bs → s'.toExec = s.toExec → s'.budget < s.budget := by
    intro s' hquiet hmain hbudget htoMain htoExec
    refine Conn.budget_exec hmain (fun hasked => ?_) ?_
    · rw [Conn.not_asked_exec hquiet] at hasked
      cases hasked
    · rw [htoMain, htoExec, List.length_append]
      omega
  cases what with
  | runMsg jobid =>
      refine hworks trivial rfl ?_ rfl rfl
      rw [hpc]
      simp only [Conn.sent, Conn.reported, ExecPc.budget]
      omega
  | doneMsg =>
      refine hworks trivial rfl ?_ rfl rfl
      rw [hpc]
      simp only [Conn.sent, Conn.finish, Conn.reported, ExecPc.budget]
      omega
  | closeConnecMain =>
      refine Conn.budget_leave rfl rfl (Conn.asked_mono rfl fun _ _ _ => by rw [hpc]; rfl)
        (Nat.le_refl _) ?_
      rw [hpc]
      simp only [Conn.sent, ExecPc.budget, List.length_append]
      omega
  | jobRequest =>
      simp only [Conn.sent]
      split
      · refine Conn.budget_leave rfl rfl (Conn.asked_mono rfl fun _ _ _ => by rw [hpc]; rfl)
          (Nat.le_refl _) ?_
        rw [hpc]
        simp only [ExecPc.budget, List.length_append]
        omega
      · refine Conn.budget_exec rfl (Conn.asked_mono rfl fun _ _ _ => by rw [hpc]; rfl) ?_
        rw [hpc]
        simp only [Conn.protocol, List.length_append]
        generalize Conn.checked _ = b
        cases b <;> simp only [ExecPc.budget, if_true, Bool.false_eq_true, if_false] <;> omega
  | sendAck =>
      simp only [Conn.sent]
      split
      · refine Conn.budget_leave rfl rfl (Conn.asked_mono rfl fun _ _ _ => by rw [hpc]; rfl)
          (Nat.le_refl _) ?_
        rw [hpc]
        simp only [ExecPc.budget, List.length_append]
        omega
      · next hok =>
          have hnot := h.not_checked (by rw [hpc]; rfl) (hcode.resolve_left hok)
          have hnot' : ∀ s' : Conn, s'.main = s.main → s'.toExec = s.toExec → s'.checked = false :=
            fun s' hmain htoExec => (Conn.checked_congr hmain htoExec).trans hnot
          refine Conn.budget_exec rfl (Conn.asked_mono rfl fun _ _ _ => by rw [hpc]; rfl) ?_
          rw [hpc]
          simp only [Conn.protocol, List.length_append]
          generalize hb : Conn.checked _ = b
          obtain rfl : false = b := (hnot' _ rfl rfl).symm.trans hb
          simp only [ExecPc.budget, Bool.false_eq_true, if_false]
          omega

theorem Conn.Holds.sendMsg_spends {what : Sends} {st : SendSt} (h : s.Holds up down pend debt)
    (hpc : s.exec = .sendMsg what pkg st) (hr : env.result ≠ .eintr)
    (hfails : s.execFailed = true → IoFails env.result) :
    (s.sendMsgStep env what pkg st).budget < s.budget := by
  have hspent := sendCall_spent (pkg.mem env.around) hr st
  have hok : (sendCall (pkg.mem env.around) env.result st).2 = .ret 1 → s.execFailed = false := by
    intro hone
    cases hfailed : s.execFailed with
    | false => rfl
    | true =>
        obtain ⟨code, hcall, hcode⟩ := (hfails hfailed).sendCall (pkg.mem env.around) st
        rw [hcall] at hone
        cases hone
        omega
  unfold Conn.sendMsgStep
  generalize sendCall (pkg.mem env.around) env.result st = out at hspent hok ⊢
  cases hspent with
  | @failed code hcode =>
      have hspends : (Conn.sent
          { s with
            toMain := s.toMain ++ []
            execFailed := s.execFailed || code ≠ 1 } env pkg code what).budget < s.budget :=
        h.sent_spends hpc (Nat.zero_le _) (.inl hcode)
      exact hspends
  | @more bs st' hne hlength =>
      have hpos := List.length_pos_iff.mpr hne
      refine Conn.budget_exec rfl (Conn.asked_mono rfl ?_) ?_
      · intro _ _
        rw [hpc]
        exact id
      · rw [hpc]
        cases what <;> simp only [ExecPc.budget, List.length_append] <;> omega
  | @whole bs hlength =>
      exact h.sent_spends hpc (Nat.le_of_eq hlength) (.inr (hok rfl))

theorem Conn.Holds.protocol_spends {st : RecvSt} (h : s.Holds up down pend debt)
    (hpc : s.exec = .execServerProtocol st) (hr : env.result ≠ .eintr) :
    (s.execServerProtocolStep env st).budget < s.budget := by
  obtain ⟨gotUp, pendUp, hlaneUp, -⟩ := h.toMain
  obtain ⟨got, hlane, hreads, htaken⟩ := h.toExec
  have hphase := h.phase
  have hwrites := h.writes
  have hdoing := h.doing
  rw [hpc] at hphase hdoing hreads
  obtain ⟨-, hfailed⟩ := hdoing.protocol_none
  rw [hfailed] at hphase
  have hpulled := recvCall_pulled hlane hreads hr
  have htakes := recvCall_taken hr s.toExec st
  unfold Conn.execServerProtocolStep
  generalize recvLoop [env.result] s.toExec st = out at hpulled htakes ⊢
  cases hpulled with
  | @failed code buf hcode =>
      have hne : code ≠ 1 := by omega
      simp only [if_neg hne, Conn.takeOut_self]
      refine Conn.budget_leave rfl rfl (Conn.asked_mono rfl ?_) (Nat.le_refl _) ?_
      · intro st' hattend hasks
        rw [hattend] at hphase
        rw [hpc]
        cases hphase with
        | idle _ hidle => rcases hidle with h | h | h <;> cases h
        | asked => simp [ExecPc.asks, hlane.of_nil.2.1]
        | leaving _ hleaving => rcases hleaving with h | h <;> cases h
        | checking hchecks _ => exact hchecks.elim
        | acked hawaits _ => exact hawaits.elim
        | carried => simp [ExecPc.asks, hlaneUp.of_nil.2.1] at hasks
      · rw [hpc]
        simp only [ExecPc.budget]
        split <;> omega
  | @more st' p rest hchan hlane' hreads' =>
      cases htakes with
      | more hless =>
          have hne : s.toExec ≠ [] := fun hnil => by rw [hnil] at hless; cases hless
          obtain ⟨c, down', rfl⟩ := hlane.exists_cons hne
          have hrest : ∀ st', s.main = .attendExecServ st' → rest ≠ [] := by
            intro st' hattend
            rw [hattend] at hwrites
            obtain rfl : pend = [] := hwrites
            exact hlane'.chan_ne_nil
          refine Conn.budget_exec rfl (Conn.asked_mono rfl ?_) ?_
          · intro st' hattend hasks
            simp [ExecPc.asks, Conn.takeOut, hrest st' hattend] at hasks
          · have hmono : (ExecPc.execServerProtocol st').budget
                (Conn.checked { s.takeOut rest with exec := .execServerProtocol st' }) ≤
                s.exec.budget s.checked := by
              rw [hpc]
              refine ExecPc.budget_mono (.execServerProtocol st') fun hchecked => ?_
              simp only [Conn.checked, Conn.takeOut] at hchecked ⊢
              cases hmain : s.main with
              | attendExecServ st' =>
                  rw [hmain] at hchecked
                  simp [hrest st' hmain] at hchecked
              | sendJob =>
                  rw [hmain] at hchecked
                  cases hchecked
              | getJob | checkServerStatus => rfl
              | select | recvAck | closed => simp [hne]
            exact Nat.add_lt_add_of_le_of_lt (Nat.add_le_add_right hmono _) hless
  | @whole c down' buf p rest hdown hchan hframe hlane' =>
      subst hdown
      have hless : rest.length < s.toExec.length := by
        have hcut := hlane.cut c rfl
        have hlength := congrArg List.length hframe
        rw [List.length_append] at hlength
        rw [hchan, List.length_append]
        omega
      have hne : s.toExec ≠ [] := fun hnil => by rw [hnil] at hless; cases hless
      obtain ⟨rfl, ⟨rfl, -, hphase'⟩ | ⟨call, -, rfl, -⟩⟩ :=
        hphase.take hwrites fun hnil => by
          subst hnil
          exact hlane'.of_nil.2.2
      · simp only [if_pos, Conn.dispatch_checkExecServer]
        have hchecks : s.checked = true ∧ ∀ st, s.main ≠ .attendExecServ st := by
          unfold Conn.checked
          generalize s.main = main at hphase' ⊢
          generalize up ++ [SetterCall.checkExecServerAck] = up' at hphase'
          cases hphase' with
          | idle _ hidle => rcases hidle with h | h | h <;> cases h
          | asked _ hasking => rcases hasking with ⟨h, -⟩ | h | h <;> cases h
          | leaving _ hleaving => rcases hleaving with h | h <;> cases h
          | taking hlistens => rcases hlistens with h | h <;> cases h
          | acked hawaits _ =>
              cases main with
              | select | recvAck => exact ⟨by simp [hne], fun _ h => by cases h⟩
              | _ => exact hawaits.elim
          | ended => exact ⟨by simp [hne], fun _ h => by cases h⟩
        obtain ⟨hchecked, hmain⟩ := hchecks
        refine Conn.budget_exec rfl (Conn.asked_mono rfl fun st' hattend => ?_) ?_
        · exact absurd hattend (hmain st')
        · have hsize : (SendSt.start (setCheckExecServerAck env.stack)).toSend = sizeofHeader :=
            toSend_start .checkExecServerAck env.stack
          rw [hpc, hchecked]
          simp only [Conn.send, Conn.takeOut, ExecPc.budget, if_true, hsize]
          have hheader : sizeofHeader = 5 := rfl
          omega
      · simp only [if_pos, Conn.dispatch_job (s.takeOut rest) env ⟨buf, rfl⟩]
        refine Conn.budget_exec rfl (Conn.asked_mono rfl fun _ _ h => by cases h) ?_
        rw [hpc]
        simp only [Conn.takeOut, ExecPc.budget]
        split <;> omega

theorem Conn.Holds.execJob_spends (h : s.Holds up down pend debt) (hpc : s.exec = .execJob pkg) :
    (s.execJobStep env pkg).budget < s.budget := by
  have hdoing := h.doing
  rw [hpc] at hdoing
  obtain ⟨carriers, jobid, hid, hcurrent⟩ := hdoing.execJob_some
  have hsizes : ∀ status, (SendSt.start (setJobRun env.stack jobid)).toSend = 9 ∧
      (SendSt.start (setJobDone env.stack jobid status)).toSend = 9 := fun status =>
    ⟨toSend_start (.jobRun jobid) env.stack, toSend_start (.jobDone jobid status) env.stack⟩
  unfold Conn.execJobStep
  rw [hid]
  split
  · refine Conn.budget_exec rfl (Conn.asked_mono rfl fun _ _ h => by cases h) ?_
    rw [hpc]
    simp only [Conn.send, Conn.forked, ExecPc.budget, (hsizes 0).1]
    omega
  · refine Conn.budget_exec rfl (Conn.asked_mono rfl fun _ _ h => by cases h) ?_
    rw [hpc]
    simp only [Conn.send, Conn.forked, ExecPc.budget, (hsizes 41).2]
    omega

theorem Conn.wait_spends {jobid : UInt16} (hpc : s.exec = .wait jobid) :
    (s.waitStep env jobid).budget < s.budget := by
  have hsent : ∀ c : SetterCall, c.size = 9 →
      (s.send .doneMsg (c.apply env.stack)).budget < s.budget := by
    intro c hsize
    refine Conn.budget_exec rfl (Conn.asked_mono rfl fun _ _ h => by cases h) ?_
    rw [hpc]
    simp only [Conn.send, ExecPc.budget, toSend_start, hsize]
    omega
  unfold Conn.waitStep
  cases env.wait with
  | exited status => exact hsent (.jobDone jobid status) rfl
  | signaled sig => exact hsent (.jobSignaled jobid sig) rfl

/-- A call of the exec server, unless it takes a command for it. -/
theorem Conn.Holds.execStep_spends {s' : Conn} (h : s.Holds up down pend debt)
    (hcommand : s.exec ≠ .command) (hr : env.result ≠ .eintr)
    (hfails : s.execFailed = true → IoFails env.result) (hs : s.execStep env = some s') :
    s'.budget < s.budget := by
  unfold Conn.execStep at hs
  cases hpc : s.exec with
  | command => exact absurd hpc hcommand
  | sendMsg what pkg st =>
      rw [hpc] at hs
      exact Option.some.inj hs ▸ h.sendMsg_spends hpc hr hfails
  | execServerProtocol st =>
      rw [hpc] at hs
      exact Option.some.inj hs ▸ h.protocol_spends hpc hr
  | execJob pkg =>
      rw [hpc] at hs
      exact Option.some.inj hs ▸ h.execJob_spends hpc
  | wait jobid =>
      rw [hpc] at hs
      exact Option.some.inj hs ▸ Conn.wait_spends hpc
  | closed =>
      rw [hpc] at hs
      cases hs

end Exec

/-! ## Runs -/

/-- A call within an exchange: not the one that begins the next. -/
def Within (s : Conn) (a : Action) : Prop :=
  Regular s a ∧
    match a with
    | .main _ => True
    | .exec _ => s.exec ≠ .command

instance (s : Conn) : (a : Action) → Decidable (Within s a)
  | .main env => inferInstanceAs (Decidable (Regular s (.main env) ∧ True))
  | .exec env => inferInstanceAs (Decidable (Regular s (.exec env) ∧ s.exec ≠ .command))

theorem Conn.Inv.within {s s' : Conn} {a : Action} (h : s.Inv) (hok : Within s a)
    (hs : s.step a = some s') : s'.Inv ∧ s'.budget < s.budget := by
  obtain ⟨up, down, pend, debt, hholds⟩ := id h
  cases a with
  | main env => exact ⟨h.mainStep hok.1 hs, hholds.mainStep_spends hok.1 hs⟩
  | exec env =>
      exact ⟨h.execStep hok.1.1 hok.1.2 hs, hholds.execStep_spends hok.2 hok.1.1 hok.1.2 hs⟩

/-- The next call of the handler returns without waiting for the other end. -/
def MainPc.Ready (toMain : List UInt8) : MainPc → Prop
  | .attendExecServ _ | .select _ _ | .recvAck _ _ => toMain ≠ []
  | .checkServerStatus _ _ _ | .sendJob _ _ _ => True
  | .getJob | .closed => False

def ExecPc.Ready (toExec : List UInt8) : ExecPc → Prop
  | .execServerProtocol _ => toExec ≠ []
  | .sendMsg _ _ _ | .execJob _ | .wait _ => True
  | .command | .closed => False

/-- An exchange is over, or waits for a job to be queued. -/
def Conn.Rests (s : Conn) : Prop :=
  s.exec = .command ∨ s.main = .getJob ∨ s.main = .closed ∨ s.exec = .closed

theorem Conn.Inv.ready {s : Conn} (h : s.Inv) :
    s.Rests ∨ s.main.Ready s.toMain ∨ s.exec.Ready s.toExec := by
  obtain ⟨up, down, pend, debt, hholds⟩ := h
  obtain ⟨gotUp, pendUp, hlaneUp, -, hwritesUp⟩ := hholds.toMain
  obtain ⟨got, hlane, -⟩ := hholds.toExec
  have hphase := hholds.phase
  have hwrites := hholds.writes
  have hdoing := hholds.doing
  cases hexec : s.exec with
  | command => exact .inl (.inl hexec)
  | closed => exact .inl (.inr (.inr (.inr hexec)))
  | sendMsg | execJob | wait => exact .inr (.inr trivial)
  | execServerProtocol st =>
      rw [hexec] at hphase hdoing hwritesUp
      have hfailed := hdoing.protocol_none.2
      rw [hfailed] at hphase hwritesUp
      obtain rfl : pendUp = [] := hwritesUp.resolve_left nofun
      have htoMain : ∀ {c : SetterCall} {rest : List SetterCall}, up = c :: rest →
          s.toMain ≠ [] := by
        rintro c rest rfl
        exact hlaneUp.chan_ne_nil
      have htoExec : ∀ {c : SetterCall}, down = [c] → pend = [] → s.toExec ≠ [] := by
        rintro c rfl rfl
        exact hlane.chan_ne_nil
      cases hmain : s.main with
      | attendExecServ st' =>
          rw [hmain] at hphase hwrites
          generalize hup : up = up' at hphase
          cases hphase with
          | idle _ hidle => rcases hidle with h | h | h <;> cases h
          | @asked _ _ reps =>
              cases reps with
              | nil => exact .inr (.inl (htoMain hup))
              | cons rep reps => exact .inr (.inl (htoMain hup))
          | leaving _ hleaving => rcases hleaving with h | h <;> cases h
          | checking hchecks _ => exact hchecks.elim
          | acked hawaits _ => exact hawaits.elim
          | carried => exact .inr (.inr (htoExec rfl hwrites))
      | getJob => exact .inl (.inr (.inl hmain))
      | checkServerStatus => exact .inr (.inl trivial)
      | select =>
          rw [hmain] at hphase hwrites
          cases hphase with
          | checking => exact .inr (.inr (htoExec rfl hwrites))
          | acked => exact .inr (.inl (htoMain rfl))
      | recvAck =>
          rw [hmain] at hphase hwrites
          cases hphase with
          | checking => exact .inr (.inr (htoExec rfl hwrites))
          | acked => exact .inr (.inl (htoMain rfl))
      | sendJob => exact .inr (.inl trivial)
      | closed => exact .inl (.inr (.inr (.inl hmain)))

/-- Between two commands of the exec server the two ends of a connection make no
more calls than the budget allows, and until the exchange is over one of them
can always make its next one: they are never both left waiting. -/
theorem exchange_ends {s s' : Conn} {acts : List Action} (h : Reach Conn.step Regular Fresh s)
    (hrun : checkedRun Conn.step Within s acts = some s') :
    acts.length + s'.budget ≤ s.budget ∧
      (s'.Rests ∨ s'.main.Ready s'.toMain ∨ s'.exec.Ready s'.toExec) := by
  have hinv := inv_of_reach h
  refine ⟨length_le_of_checkedRun (I := Conn.Inv) (fun _ _ _ => Conn.Inv.within) hinv hrun, ?_⟩
  have hstart : Reach Conn.step Within (· = s) s := .start rfl
  have hreach := hstart.checkedRun hrun
  exact (inv_of_reach (h.trans (hreach.mono fun _ _ hok => hok.1))).ready

/-- `oneJob` behind its command. -/
theorem exchange_ends_oneJob :
    ∃ s s' : Conn, s'.exec = .command ∧ s'.executed.length = 1 ∧
      oneJob.tail.length + s'.budget ≤ s.budget ∧
        (s'.Rests ∨ s'.main.Ready s'.toMain ∨ s'.exec.Ready s'.toExec) := by
  obtain ⟨s, hr, hrun⟩ : ∃ s : Conn, Reach Conn.step Regular Fresh s ∧
      (checkedRun Conn.step Within s oneJob.tail).any (fun s' =>
        decide (s'.exec = .command ∧ s'.executed.length = 1)) = true :=
    @reach_of_checkedRun _ _ _ _ Fresh _ (oneJob.take 1) (.init (Msg.fill 0)) _ _ ⟨_, rfl⟩
      (by decide +kernel)
  obtain ⟨s', hs', hcommand, hexecuted⟩ := exists_checkedRun hrun
  exact ⟨s, s', hcommand, hexecuted, exchange_ends hr hs'⟩

end DistQueue.Handshake
