import DistQueue.Exec.Outcome
import DistQueue.Server.Delivery
import DistQueue.Server.Faults

/-!
# Interactive or not

A job in the server has no kind. `sendJob` tells the two apart by the address,
so an interactive submission with address 0 comes out as the other kind, and
its client waits for a connection that nobody makes.

All of this is about runs in which no section touches memory that is not there:
a put-back that finds no record frees the job it has just put, and what is sent
for that one is whatever the block holds by then.
-/

namespace DistQueue

open DistQueue.Lib

section Kind

variable {m pkg : Msg}

/-- What arrives of a job is a message for `execJob`, under the job's id. -/
theorem arrived_job {job : Job} (h : job.call.Arrived pkg) :
    (getType pkg = MsgType.sendjobNointer.toByte ∨
      getType pkg = MsgType.sendjobInter.toByte) ∧ execJobID pkg = some job.id := by
  unfold execJobID
  by_cases hip : job.ipaddr = 0
  · obtain ⟨htype, -, -, hid⟩ := arrived_noInter hip h
    rw [if_pos htype, hid]
    exact ⟨.inl htype, rfl⟩
  · obtain ⟨htype, -, -, hid, -⟩ := arrived_inter hip h
    have hne : getType pkg ≠ MsgType.sendjobNointer.toByte := by rw [htype]; decide
    rw [if_neg hne, if_pos htype, hid]
    exact ⟨.inr htype, rfl⟩

/-- `m` dispatches the interactive submission `pkg`: it is of that kind, has
the port and the address as they are in `pkg`, and a child that sets up its
streams for `m` has them all connected there. -/
structure Msg.Dispatches (m pkg : Msg) : Prop where
  type : getType m = MsgType.sendjobInter.toByte
  port : m.get .addrPort = pkg.get .addrPort
  ipaddr : m.get .addrIpaddr = pkg.get .addrIpaddr
  connects : ∀ calls behind proc, SetUp calls m → consumeJob calls behind m = .exec proc →
    proc.stdin = .client (getExecAddrPort pkg) (getExecAddrIpadd pkg) ∧
      proc.stdout = .client (getExecAddrPort pkg) (getExecAddrIpadd pkg) ∧
      proc.stderr = .client (getExecAddrPort pkg) (getExecAddrIpadd pkg)

/-- The address and the port in a message are the ones `socketPortConnect` is
given. -/
theorem consumeJob_connects (htype : getType m = MsgType.sendjobInter.toByte) {calls : Calls}
    {behind : Behind} {proc : Proc} (hset : SetUp calls m)
    (hexec : consumeJob calls behind m = .exec proc) :
    proc.stdin = .client (getExecAddrPort m) (getExecAddrIpadd m) ∧
      proc.stdout = .client (getExecAddrPort m) (getExecAddrIpadd m) ∧
      proc.stderr = .client (getExecAddrPort m) (getExecAddrIpadd m) := by
  have hno : getType m ≠ MsgType.sendjobNointer.toByte := by rw [htype]; decide
  have hhost : calls.gethostbyaddr = true := by
    have hrest := hset.2.2.2.2
    rw [if_neg hno] at hrest
    exact hrest.1
  obtain ⟨proc', hproc, ⟨-, rfl⟩ | ⟨hnot, -⟩⟩ := @setFDsIter_cases _ behind _ hno hhost
  · unfold consumeJob at hexec
    rw [if_neg hno, if_pos htype, hproc] at hexec
    obtain ⟨-, rfl⟩ := execLine_eq_exec.mp hexec
    exact ⟨rfl, rfl, rfl⟩
  · exact absurd hset hnot

/-- In every run that stays inside its memory: whatever is sent for a
non-interactive submission is a non-interactive job, and what is sent for an
interactive one dispatches it exactly when its address is not 0. -/
theorem kind_survives_iff {N : Nat} [NeZero N] {s s₁ s₂ : Sys N}
    (h : Reach Sys.step Sys.InBounds (· = Sys.init N) s) {t : Nat}
    (ht : s.threads[t]? = some .attendClient) {blank : Job}
    (h₁ : s.step (.receive t pkg blank) = some s₁) (h₂ : Reach Sys.step Sys.InBounds (· = s₁) s₂)
    {i : Nat} {wire : List UInt8} (hsent : .sent i s.heap.length wire ∈ s₂.log) (buf : Msg) :
    (getType pkg = MsgType.subNoInter.toByte →
      getType (buf.over wire) = MsgType.sendjobNointer.toByte) ∧
    (getType pkg = MsgType.subInteractive.toByte →
      ((buf.over wire).Dispatches pkg ↔ getExecAddrIpadd pkg ≠ 0)) := by
  have hr₁ : Reach Sys.step Sys.InBounds (· = Sys.init N) s₁ :=
    .step (a := .receive t pkg blank) h ⟨trivial, trivial, trivial⟩ h₁
  refine ⟨fun hpkg => ?_, fun hpkg => ?_⟩
  · have hf := follows_of_run hr₁
      (follows_of_receive h ht (submitNoInter_taken hpkg s.heap blank) h₁) h₂
    obtain ⟨id, -, rfl⟩ := hf.sent _ hsent i wire rfl
    exact (@arrived_noInter { submitNoInter pkg blank with id := id } _ rfl ⟨buf, rfl⟩).1
  · have hf := follows_of_run hr₁
      (follows_of_receive h ht (submitInter_taken hpkg s.heap blank) h₁) h₂
    obtain ⟨id, -, rfl⟩ := hf.sent _ hsent i wire rfl
    constructor
    · intro hdisp hzero
      have hno := @arrived_noInter { submitInter pkg blank with id := id } _ hzero ⟨buf, rfl⟩
      have htype := hdisp.type
      rw [hno.1] at htype
      exact absurd htype (by decide)
    · intro hip
      obtain ⟨htype, -, -, -, hport, hipaddr⟩ :=
        @arrived_inter { submitInter pkg blank with id := id } _ hip ⟨buf, rfl⟩
      have hport' := hport.trans (store16_load16 (Msg.length_get pkg .addrPort))
      have hipaddr' := hipaddr.trans (store32_load32 (Msg.length_get pkg .addrIpaddr))
      refine ⟨htype, hport', hipaddr', fun calls behind proc hset hexec => ?_⟩
      have hconn := consumeJob_connects htype hset hexec
      rw [getExecAddrPort, getExecAddrIpadd, Msg.get16, Msg.get32, hport', hipaddr'] at hconn
      exact hconn

/-- `sh`, submitted interactively from a client with an address. -/
def shCall (addr : UInt32) : SetterCall := .fileExecInterClient [115, 104, 10] [47] addr 80 0

/-- Taken in by thread 0, queued, and fetched by an exec server on thread 1. -/
def shDelivery (addr : UInt32) : List Action :=
  [.receive 0 ((Msg.fill 0).over (shCall addr).wire) Action.blankJob, .go 0, .go 0, .go 0, .go 0,
    .acceptExecServ, .request 1, .go 1, .go 1, .go 1, .go 1]

/-- The exec server on thread 1 is gone, and another one fetches the job. -/
def shRedelivery (addr : UInt32) : List Action :=
  [.receive 0 ((Msg.fill 0).over (shCall addr).wire) Action.blankJob, .go 0, .go 0, .go 0, .go 0,
    .acceptExecServ, .request 1, .go 1, .go 1, .fail 1, .go 1, .go 1, .go 1,
    .acceptExecServ, .request 2, .go 2, .go 2, .go 2, .go 2]

theorem kind_survives_iff_localhost :
    ∃ s : Sys numQueueMax, Reach Sys.step Sys.InBounds (· = Sys.init numQueueMax) s ∧
      ∃ wire, .sent 2 0 wire ∈ s.log ∧
        ((Msg.fill 0).over wire).Dispatches ((Msg.fill 0).over (shCall 16777343).wire) := by
  obtain ⟨s, hrun, hsent⟩ : ∃ s,
      checkedRun Sys.step Sys.InBounds oneClient (shRedelivery 16777343) = some s ∧
        .sent 2 0 (SetterCall.fileExecInter [115, 104, 10] [47] 16777343 80 0).wire ∈ s.log :=
    exists_checkedRun (by decide +kernel)
  obtain ⟨-, s₁, h₁, hrest⟩ := checkedRun_cons.mp hrun
  have hone : Reach Sys.step Sys.InBounds (· = Sys.init numQueueMax) oneClient :=
    .step (a := .acceptClient) (.start rfl) ⟨trivial, trivial, trivial⟩ rfl
  have hstart : Reach Sys.step Sys.InBounds (· = s₁) s₁ := .start rfl
  have hkind := (kind_survives_iff hone rfl h₁ (hstart.checkedRun hrest) hsent
    (Msg.fill 0)).2 (by decide +kernel)
  exact ⟨s, hone.checkedRun hrun, _, hsent, hkind.mpr (by decide +kernel)⟩

/-- Address 0: the job is sent as a non-interactive one. -/
theorem address_zero_sent_noInter :
    ∃ s : Sys numQueueMax, Reach Sys.step anyStep (· = Sys.init numQueueMax) s ∧ s.Bounded ∧
      s.fault = none ∧ (shCall 0).Arrived ((Msg.fill 0).over (shCall 0).wire) ∧
      checkedRun Sys.step anyStep oneClient (shDelivery 0) = some s ∧
      ∃ wire, .sent 1 0 wire ∈ s.log ∧
        getType ((Msg.fill 0).over wire) = MsgType.sendjobNointer.toByte ∧
        ¬ ((Msg.fill 0).over wire).Dispatches ((Msg.fill 0).over (shCall 0).wire) := by
  obtain ⟨s, hrun, hb, hfault, hsent⟩ : ∃ s,
      checkedRun Sys.step anyStep oneClient (shDelivery 0) = some s ∧ s.Bounded ∧ s.fault = none ∧
        .sent 1 0 (SetterCall.fileExecNoInter [115, 104, 10] [47] 0).wire ∈ s.log :=
    exists_checkedRun (by decide +kernel)
  have htype := SetterCall.getType_over (Msg.fill 0) (.fileExecNoInter [115, 104, 10] [47] 0)
  refine ⟨s, oneClient_reach.checkedRun hrun, hb, hfault, ⟨_, rfl⟩, hrun, _, hsent, htype,
    fun hdisp => ?_⟩
  have hinter := hdisp.type
  rw [htype] at hinter
  exact absurd hinter (by decide)

end Kind

end DistQueue
