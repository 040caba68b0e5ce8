import DistQueue.Proto.Wire
import DistQueue.Server.Retention

/-!
# From the submission to the dispatch

A job keeps what its submission brought: no section writes into it but the one
that stores its id. The three ways the id takes, into the reply, the record and
the job, start in one section, so however often the job is put back, they carry
the same number.
-/

namespace DistQueue

open DistQueue.Lib

/-! ## What a field has of a string -/

/-- The copy of a field is determined by the string in it. -/
theorem strncpy_field {n : Nat} {field s : List UInt8} (hlen : field.length = n)
    (hs : cstr field = s) : strncpy n field = strncpy n s := by
  have hle : s.length ≤ n := by
    rw [← hs, ← hlen]
    exact cstr_length_le field
  have hself : cstr s = s := by
    rw [← hs]
    exact cstr_of_nul_free (not_mem_cstr field)
  rw [strncpy, strncpy, List.take_of_length_le (Nat.le_of_eq hlen), List.take_of_length_le hle,
    hs, hself]

/-! ## The message of a job -/

/-- The setter call of `sendJob`. -/
def Job.call (job : Job) : SetterCall :=
  if job.ipaddr = 0 then .fileExecNoInter job.execFile job.workingDir job.id
  else .fileExecInter job.execFile job.workingDir job.ipaddr job.port job.id

section Message

variable {job : Job} {m : Msg}

theorem Job.wire_call (job : Job) (m : Msg) : (job.msg m).wire = job.call.wire := by
  unfold Job.msg Job.call
  split
  · exact SetterCall.apply_wire m (.fileExecNoInter ..)
  · exact SetterCall.apply_wire m (.fileExecInter ..)

theorem SetterCall.Arrived.get {c : SetterCall} (h : c.Arrived m) {k n : Nat} {f : Field n}
    (hk : c.size = k) (hf : f.off + n ≤ k) : m.get f = (c.apply (Msg.fill 0)).get f := by
  obtain ⟨buf, rfl⟩ := h
  subst hk
  exact SetterCall.get_over buf _ c hf

section Paths

variable {c : SetterCall} {file dir : List UInt8} {jobid port : UInt16} {addr : UInt32}

/-- The paths of a job without an address, on the way to the main server or
from it. -/
theorem SetterCall.Arrived.paths_noInter (h : c.Arrived m)
    (hc : c = .fileExecNoInter file dir jobid ∨ c = .fileExecNoInterClient file dir jobid) :
    getExecFileExecExecfile m = strncpy (szPath * numPath) file ∧
      getExecFileExecWdir m = strncpy szPath dir := by
  have hsize : c.size = 519 := by rcases hc with rfl | rfl <;> rfl
  refine ⟨(h.get hsize (by decide)).trans ?_, (h.get hsize (by decide)).trans ?_⟩
  · rcases hc with rfl | rfl <;> simp (disch := decide) only [SetterCall.apply,
      setFileExecNoInter, setFileExecNoInterClient, Msg.get_put16_apart, Msg.get_putStr_apart,
      Msg.get_putStr]
  · rcases hc with rfl | rfl <;> simp (disch := decide) only [SetterCall.apply,
      setFileExecNoInter, setFileExecNoInterClient, Msg.get_put16_apart, Msg.get_putStr]

/-- And of a job with one. -/
theorem SetterCall.Arrived.paths_inter (h : c.Arrived m)
    (hc : c = .fileExecInter file dir addr port jobid ∨
      c = .fileExecInterClient file dir addr port jobid) :
    getExecAddrFileExecExecfile m = strncpy (szPath * numPath) file ∧
      getExecAddrFileExecWdir m = strncpy szPath dir := by
  have hsize : c.size = 525 := by rcases hc with rfl | rfl <;> rfl
  refine ⟨(h.get hsize (by decide)).trans ?_, (h.get hsize (by decide)).trans ?_⟩
  · rcases hc with rfl | rfl <;> simp (disch := decide) only [SetterCall.apply,
      setFileExecInter, setFileExecInterClient, Msg.get_put16_apart, Msg.get_put32_apart,
      Msg.get_putStr_apart, Msg.get_putStr]
  · rcases hc with rfl | rfl <;> simp (disch := decide) only [SetterCall.apply,
      setFileExecInter, setFileExecInterClient, Msg.get_put16_apart, Msg.get_put32_apart,
      Msg.get_putStr]

end Paths

/-- What arrives of a job without an address. -/
theorem arrived_noInter (hip : job.ipaddr = 0) (h : job.call.Arrived m) :
    getType m = MsgType.sendjobNointer.toByte ∧
      getExecFileExecExecfile m = strncpy (szPath * numPath) job.execFile ∧
      getExecFileExecWdir m = strncpy szPath job.workingDir ∧ getJobIDNoIter m = job.id := by
  have hcall : job.call = .fileExecNoInter job.execFile job.workingDir job.id := if_pos hip
  have hsize : (SetterCall.fileExecNoInter job.execFile job.workingDir job.id).size = 519 := rfl
  rw [hcall] at h
  obtain ⟨hfile, hdir⟩ := h.paths_noInter (.inl rfl)
  refine ⟨h.getType, hfile, hdir, ?_⟩
  rw [getJobIDNoIter, Msg.get16, h.get hsize (by decide)]
  simp only [SetterCall.apply, setFileExecNoInter, Msg.get_put16, load16_store16, ntohs_htons]

/-- What arrives of a job with an address. -/
theorem arrived_inter (hip : job.ipaddr ≠ 0) (h : job.call.Arrived m) :
    getType m = MsgType.sendjobInter.toByte ∧
      getExecAddrFileExecExecfile m = strncpy (szPath * numPath) job.execFile ∧
      getExecAddrFileExecWdir m = strncpy szPath job.workingDir ∧ getJobIDIter m = job.id ∧
      m.get .addrPort = store16 job.port ∧ m.get .addrIpaddr = store32 job.ipaddr := by
  have hcall : job.call =
      .fileExecInter job.execFile job.workingDir job.ipaddr job.port job.id := if_neg hip
  have hsize : (SetterCall.fileExecInter job.execFile job.workingDir job.ipaddr job.port
    job.id).size = 525 := rfl
  rw [hcall] at h
  obtain ⟨hfile, hdir⟩ := h.paths_inter (.inl rfl)
  refine ⟨h.getType, hfile, hdir, ?_, ?_, ?_⟩
  · rw [getJobIDIter, Msg.get16, h.get hsize (by decide)]
    simp (disch := decide) only [SetterCall.apply, setFileExecInter, Msg.get_put16_apart,
      Msg.get_put32_apart, Msg.get_put16, load16_store16, ntohs_htons]
  · rw [h.get hsize (by decide)]
    simp only [SetterCall.apply, setFileExecInter, Msg.get_put16]
  · rw [h.get hsize (by decide)]
    simp (disch := decide) only [SetterCall.apply, setFileExecInter, Msg.get_put16_apart,
      Msg.get_put32]

end Message

/-! ## The job in memory -/

section Body

variable {N : Nat} [NeZero N]

/-- The block has the contents of `job`, its id aside. -/
def Heap.HasBody (heap : Heap) (p : Ptr) (job : Job) : Prop :=
  ∃ id, heap.contents p = some { job with id := id }

theorem Ran.hasBody {server : MainServer N} {heap : Heap} {t : Nat} {env : Env} {pc : Pc N}
    {r : Result N} (h : Ran server heap t env pc r) {p : Ptr} {job : Job}
    (hb : heap.HasBody p job) : r.heap.HasBody p job := by
  by_cases hp : pc.drafts = some p
  · cases h with
    | @submittedResponse _ q id contents hload =>
        injection hp with hp
        subst hp
        obtain ⟨id₀, hid₀⟩ := hb
        rw [Heap.contents_of_load hload] at hid₀
        injection hid₀ with hid₀
        refine ⟨id, ?_⟩
        rw [hid₀]
        refine Heap.contents_of_load (Heap.load_eq_some.mpr ?_)
        exact List.getElem?_set_self (Heap.lt_of_load hload)
    | newJob | numberJob => exact hb
    | _ => cases hp
  · obtain ⟨id, hid⟩ := hb
    exact ⟨id, (h.contents hp).trans hid⟩

theorem hasBody_step {s s' : Sys N} {a : Action} {p : Ptr} {job : Job}
    (hb : s.heap.HasBody p job) (h : s.step a = some s') : s'.heap.HasBody p job := by
  cases (step_cases h).2 with
  | accepted =>
      obtain ⟨id, hid⟩ := hb
      have hlt : p < s.heap.length := by
        rw [Heap.contents] at hid
        obtain ⟨cell, hcell, -⟩ := Option.map_eq_some_iff.mp hid
        exact (List.getElem?_eq_some_iff.mp hcell).1
      exact ⟨id, (Heap.contents_malloc hlt).trans hid⟩
  | ran _ hran => exact hran.hasBody hb
  | _ => exact hb

omit [NeZero N] in
/-- A job is numbered once. -/
theorem Sys.Numbered.unique {s : Sys N} (hr : s.Recorded) {p : Ptr} {jobid jobid' : UInt16}
    (h : s.Numbered p jobid) (h' : s.Numbered p jobid') : jobid = jobid' := by
  obtain ⟨n, hn, hid⟩ := h.index
  obtain ⟨n', hn', hid'⟩ := h'.index
  have hlt := (List.getElem?_eq_some_iff.mp hn).1
  have heq : n = n' := (List.getElem?_inj hlt hr.nodup).mp (hn.trans hn'.symm)
  rw [← hid, ← hid', heq]

/-- The replies to submissions name the job's number. -/
def Sys.Answers (s : Sys N) : Prop :=
  ∀ e ∈ s.log, ∀ t p jobid wire, e = .answered t p jobid wire →
    s.Numbered p jobid ∧ wire = (SetterCall.jobID jobid).wire

theorem Ran.answered {server : MainServer N} {heap : Heap} {t i : Nat} {env : Env} {pc : Pc N}
    {r : Result N} (h : Ran server heap t env pc r) {p : Ptr} {jobid : UInt16} {wire : List UInt8}
    (he : .answered i p jobid wire ∈ r.events) :
    i = t ∧ (∃ queueIdx, pc = .submittedResponse p queueIdx jobid) ∧
      wire = (SetterCall.jobID jobid).wire := by
  cases h.emits he with
  | answered => exact ⟨rfl, ⟨_, rfl⟩, SetterCall.apply_wire env.stack (.jobID jobid)⟩

theorem answers_of_reach {ok : Sys N → Action → Prop} {s : Sys N}
    (h : Reach Sys.step ok (· = Sys.init N) s) : s.Answers := by
  refine h.invariant ?_ fun s a s' hr hans hok h => ?_
  · intro s h
    subst h
    exact fun e he => (by cases he)
  · have hids := ids_of_reach hr
    refine log_step (step_cases h).2 hans ?_ ?_ ?_
    · intro e he t p jobid wire heq
      obtain ⟨hn, hw⟩ := he t p jobid wire heq
      exact ⟨hn.step h, hw⟩
    · intro t t' p jobid wire heq
      cases heq
    · intro t env pc r _ ht hran _ e he t' p jobid wire heq
      subst heq
      obtain ⟨-, ⟨q, rfl⟩, hw⟩ := hran.answered he
      exact ⟨(hids.responding t p q jobid ht).step h, hw⟩

/-- What shows of the submission that thread `t` took in as `job`. -/
structure Sys.Follows (s : Sys N) (t : Nat) (p : Ptr) (job : Job) : Prop where
  body : s.heap.HasBody p job
  drafts : ∀ (i : Nat) (pc : Pc N), s.threads[i]? = some pc → pc.drafts = some p → i = t
  answered : ∀ e ∈ s.log, ∀ i jobid wire, e = .answered i p jobid wire → i = t
  sent : ∀ e ∈ s.log, ∀ i wire, e = .sent i p wire → ∃ id, s.Numbered p id ∧
    wire = { job with id := id }.call.wire

theorem Ran.dispatches {server : MainServer N} {heap : Heap} {t i : Nat} {env : Env} {pc : Pc N}
    {r : Result N} (h : Ran server heap t env pc r) {p : Ptr} {wire : List UInt8}
    (he : .sent i p wire ∈ r.events) :
    ∃ contents, heap.contents p = some contents ∧ wire = contents.call.wire := by
  cases h.emits he with
  | @sent _ contents _ hload =>
      exact ⟨contents, Heap.contents_of_load hload, Job.wire_call contents env.stack⟩

theorem Sys.Follows.step {ok : Sys N → Action → Prop} {s s' : Sys N} {a : Action} {t : Nat}
    {p : Ptr} {job : Job} (hf : s.Follows t p job)
    (hr : Reach Sys.step ok (· = Sys.init N) s) (h : s.step a = some s') : s'.Follows t p job := by
  have hstep := (step_cases h).2
  have hlt : p < s.heap.length := by
    obtain ⟨id, hid⟩ := hf.body
    obtain ⟨cell, hcell, -⟩ := Option.map_eq_some_iff.mp hid
    exact (List.getElem?_eq_some_iff.mp hcell).1
  refine ⟨hasBody_step hf.body h, ?_, ?_, ?_⟩
  · refine threads_step hstep hf.drafts (fun _ _ h => h) ?_ ?_ ?_ ?_
    · intro i pc hpc
      rwa [Pc.drafts_wake]
    · intro i pc hpc hp
      rw [hpc.drafts] at hp
      cases hp
    · rintro i ⟨rfl⟩
      exact absurd hlt (Nat.lt_irrefl _)
    · intro i env pc r _ hi hran _ hp
      exact hf.drafts i pc hi (hran.drafts hp)
  · refine log_step hstep hf.answered (fun _ h => h) ?_ ?_
    · intro i j jobid wire heq
      cases heq
    · intro i env pc r _ hi hran _ e he j jobid wire heq
      subst heq
      obtain ⟨rfl, ⟨q, rfl⟩, -⟩ := hran.answered he
      exact hf.drafts _ _ hi rfl
  · refine log_step hstep hf.sent ?_ ?_ ?_
    · intro e he i wire heq
      obtain ⟨id, hn, hw⟩ := he i wire heq
      exact ⟨id, hn.step h, hw⟩
    · intro i j wire heq
      cases heq
    · intro i env pc r _ hi hran _ e he j wire heq
      subst heq
      have hstamped := (past_of_reach hr).threads i pc hi p (hran.sent_carries he)
      obtain ⟨contents, hcont, hw⟩ := hran.dispatches he
      obtain ⟨job', hjob', hn⟩ := (ids_of_reach hr).stamped p hstamped
      obtain ⟨id, hid⟩ := hf.body
      rw [hcont] at hjob' hid
      injection hjob' with hjob'
      injection hid with hid
      subst hjob' hid
      exact ⟨_, hn.step h, hw⟩

/-- A submission is followed from the message on. -/
theorem follows_of_receive {ok : Sys N → Action → Prop} {s s' : Sys N} {t : Nat} {pkg : Msg}
    {blank job : Job} (hr : Reach Sys.step ok (· = Sys.init N) s)
    (ht : s.threads[t]? = some .attendClient)
    (hjob : (receiveClient s.heap pkg blank : Option Job × Pc N) = (some job, .newJob s.heap.length))
    (h : s.step (.receive t pkg blank) = some s') : s'.Follows t s.heap.length job := by
  have hs' : s' = { s with
      heap := s.heap.malloc job
      threads := s.threads.set t (.newJob s.heap.length)
      log := s.log ++ [.accepted t s.heap.length] } := by
    unfold Sys.step at h
    split at h
    · simp only [Sys.receive, ht, hjob] at h
      injection h with h
      exact h.symm
    · cases h
  subst hs'
  have hfresh := apart_of_reach hr s.heap.length
  rw [if_neg (Nat.lt_irrefl _)] at hfresh
  refine ⟨⟨job.id, ?_⟩, ?_, ?_, ?_⟩
  · rw [Heap.contents, Heap.malloc, List.getElem?_concat_length]
    rfl
  · intro i pc hi hp
    by_contra hne
    rw [List.getElem?_set_ne (Ne.symm hne)] at hi
    have hle := le_tally (f := fun pc : Pc N => one pc.drafts s.heap.length) hi
    rw [hp, one, if_pos rfl] at hle
    rw [Sys.drafted] at hfresh
    omega
  · intro e he i jobid wire heq
    subst heq
    rcases List.mem_append.mp he with he | he
    · obtain ⟨n, hn, -⟩ := (answers_of_reach hr _ he i _ jobid wire rfl).1.index
      have hlt := ((recorded_of_reach hr).fresh _ (List.mem_of_getElem? hn)).1
      exact absurd hlt (Nat.lt_irrefl _)
    · cases List.mem_singleton.mp he
  · intro e he i wire heq
    subst heq
    rcases List.mem_append.mp he with he | he
    · have hlt := ((past_of_reach hr).log _ he i _ wire rfl).1
      exact absurd hlt (Nat.lt_irrefl _)
    · cases List.mem_singleton.mp he

/-- And on from there. -/
theorem follows_of_run {ok : Sys N → Action → Prop} {s s' : Sys N} {t : Nat} {p : Ptr} {job : Job}
    (h : Reach Sys.step ok (· = Sys.init N) s) (hf : s.Follows t p job)
    (hrun : Reach Sys.step ok (· = s) s') : s'.Follows t p job := by
  refine hrun.invariant (I := fun s' => s'.Follows t p job) ?_ ?_
  · intro s' heq
    exact heq ▸ hf
  · intro s₁ a s₂ hr hf _ hstep
    exact hf.step (h.trans hr) hstep

end Body

/-! ## What is submitted is what is sent -/

/-- A `SENDJOB` message, of the one kind or the other, has the two strings in
its fields, padded with NULs, and the id. -/
def Msg.Carries (m : Msg) (line wdir : List UInt8) (jobid : UInt16) : Prop :=
  (getType m = MsgType.sendjobNointer.toByte ∧
      getExecFileExecExecfile m = strncpy (szPath * numPath) line ∧
      cstr (getExecFileExecExecfile m) = line ∧
      getExecFileExecWdir m = strncpy szPath wdir ∧ cstr (getExecFileExecWdir m) = wdir ∧
      getJobIDNoIter m = jobid) ∨
    (getType m = MsgType.sendjobInter.toByte ∧
      getExecAddrFileExecExecfile m = strncpy (szPath * numPath) line ∧
      cstr (getExecAddrFileExecExecfile m) = line ∧
      getExecAddrFileExecWdir m = strncpy szPath wdir ∧ cstr (getExecAddrFileExecWdir m) = wdir ∧
      getJobIDIter m = jobid)

/-- The client's two ways to submit a line in a directory. -/
def SetterCall.Submits (c : SetterCall) (line wdir : List UInt8) : Prop :=
  (∃ jobid, c = .fileExecNoInterClient line wdir jobid) ∨
    ∃ addr port jobid, c = .fileExecInterClient line wdir addr port jobid

section Delivery

variable {line wdir : List UInt8} {N : Nat} {pkg : Msg}

/-- What `attendClient` makes of a submission. -/
theorem receiveClient_submission {c : SetterCall} (hc : c.Submits line wdir)
    (hline : SetterCall.PathArg line) (hwdir : SetterCall.PathArg wdir)
    (hpkg : c.Arrived pkg) (heap : Heap) (blank : Job) :
    ∃ job, (receiveClient heap pkg blank : Option Job × Pc N) = (some job, .newJob heap.length) ∧
      job.execFile = strncpy (szPath * numPath) line ∧ job.workingDir = strncpy szPath wdir := by
  rcases hc with ⟨jobid, rfl⟩ | ⟨addr, port, jobid, rfl⟩
  · obtain ⟨hfile, hdir, -, -⟩ := hpkg.readBack ⟨hline, hwdir⟩
    have htype : getType pkg = MsgType.subNoInter.toByte := hpkg.getType
    refine ⟨submitNoInter pkg blank, submitNoInter_taken htype heap blank, ?_, ?_⟩
    · exact strncpy_field (Msg.length_get _ _) hfile
    · exact strncpy_field (Msg.length_get _ _) hdir
  · obtain ⟨hfile, hdir, -, -, -, -⟩ := hpkg.readBack ⟨hline, hwdir⟩
    have htype : getType pkg = MsgType.subInteractive.toByte := hpkg.getType
    refine ⟨submitInter pkg blank, submitInter_taken htype heap blank, ?_, ?_⟩
    · exact strncpy_field (Msg.length_get _ _) hfile
    · exact strncpy_field (Msg.length_get _ _) hdir

theorem carries_of_arrived {job : Job} (hline : SetterCall.PathArg line)
    (hwdir : SetterCall.PathArg wdir) (hfile : job.execFile = strncpy (szPath * numPath) line)
    (hdir : job.workingDir = strncpy szPath wdir) {m : Msg} (hm : job.call.Arrived m) :
    m.Carries line wdir job.id := by
  have hline' : cstr (strncpy (szPath * numPath) line) = line :=
    cstr_strncpy_of_lt hline.1 (Nat.le_of_lt hline.2)
  have hwdir' : cstr (strncpy szPath wdir) = wdir :=
    cstr_strncpy_of_lt hwdir.1 (Nat.le_of_lt hwdir.2)
  by_cases hip : job.ipaddr = 0
  · obtain ⟨htype, hf, hd, hid⟩ := arrived_noInter hip hm
    rw [hfile, strncpy_strncpy] at hf
    rw [hdir, strncpy_strncpy] at hd
    exact .inl ⟨htype, hf, by rw [hf, hline'], hd, by rw [hd, hwdir'], hid⟩
  · obtain ⟨htype, hf, hd, hid, -, -⟩ := arrived_inter hip hm
    rw [hfile, strncpy_strncpy] at hf
    rw [hdir, strncpy_strncpy] at hd
    exact .inr ⟨htype, hf, by rw [hf, hline'], hd, by rw [hd, hwdir'], hid⟩

/-- In every run: what is sent for a submission carries the client's two
strings, and the id its record was numbered with, which is the one in the record
as long as that is there and the one in the reply to the client. -/
theorem submitted_is_sent [NeZero N] {s s₁ s₂ : Sys N}
    (h : Reach Sys.step anyStep (· = Sys.init N) s) {c : SetterCall} (hc : c.Submits line wdir)
    (hline : SetterCall.PathArg line) (hwdir : SetterCall.PathArg wdir)
    (hpkg : c.Arrived pkg) {t : Nat} (ht : s.threads[t]? = some .attendClient) {blank : Job}
    (h₁ : s.step (.receive t pkg blank) = some s₁) (h₂ : Reach Sys.step anyStep (· = s₁) s₂)
    {i : Nat} {wire : List UInt8} (hsent : .sent i s.heap.length wire ∈ s₂.log) :
    ∃ id, s₂.Numbered s.heap.length id ∧
      (∀ buf : Msg, (buf.over wire).Carries line wdir id) ∧
      (∀ c record, s₂.server.history.slot c = some record → record.addr = s.heap.length →
        record.id = id) ∧
      ∀ i' id' wire', .answered i' s.heap.length id' wire' ∈ s₂.log →
        i' = t ∧ id' = id ∧ ∀ buf : Msg, getType (buf.over wire') = MsgType.subResp.toByte ∧
          getJobID (buf.over wire') = id := by
  obtain ⟨job, hjob, hfile, hdir⟩ := receiveClient_submission (N := N) hc hline hwdir hpkg s.heap blank
  have hr₁ : Reach Sys.step anyStep (· = Sys.init N) s₁ := .step h trivial h₁
  have hr := hr₁.trans h₂
  have hf := follows_of_run hr₁ (follows_of_receive h ht hjob h₁) h₂
  obtain ⟨id, hn, rfl⟩ := hf.sent _ hsent i wire rfl
  have hrec := recorded_of_reach hr
  refine ⟨id, hn, fun buf => ?_, fun c record hslot haddr => ?_, fun i' id' wire' he => ?_⟩
  · exact @carries_of_arrived _ _ { job with id := id } hline hwdir hfile hdir _ ⟨buf, rfl⟩
  · have hlt : c < jobHistoryMax :=
      (Vector.getElem?_eq_some_iff.mp (History.slot_eq_some.mp hslot)).1
    have hn' := numbered_of_slot (linked_of_reach hr) hlt hslot
    rw [haddr] at hn'
    exact hn'.unique hrec hn
  · obtain ⟨hn', rfl⟩ := answers_of_reach hr _ he i' _ id' wire' rfl
    have hid := hn'.unique hrec hn
    subst hid
    refine ⟨hf.answered _ he i' id' _ rfl, rfl, fun buf => ?_⟩
    have harrived : (SetterCall.jobID id').Arrived (buf.over (SetterCall.jobID id').wire) :=
      ⟨buf, rfl⟩
    exact ⟨harrived.getType, harrived.readBack trivial⟩

/-- `ls` in `/`, from a client. -/
def lsCall : SetterCall := .fileExecNoInterClient [108, 115, 10] [47] 0

/-- Taken in by thread 0, queued, and fetched by an exec server on thread 1. -/
def lsDelivery : List Action :=
  [.receive 0 ((Msg.fill 0).over lsCall.wire) Action.blankJob, .go 0, .go 0, .go 0, .go 0,
    .acceptExecServ, .request 1, .go 1, .go 1, .go 1, .go 1]

/-- A server with one client. -/
def oneClient : Sys numQueueMax := { Sys.init numQueueMax with threads := [.attendClient] }

theorem oneClient_reach : Reach Sys.step anyStep (· = Sys.init numQueueMax) oneClient :=
  .step (a := .acceptClient) (.start rfl) trivial rfl

theorem submitted_is_sent_ls :
    ∃ s : Sys numQueueMax, Reach Sys.step anyStep (· = Sys.init numQueueMax) s ∧
      ∃ wire, .sent 1 0 wire ∈ s.log ∧ ∃ id, s.Numbered 0 id ∧
        ∀ buf : Msg, (buf.over wire).Carries [108, 115, 10] [47] id := by
  have hpath : SetterCall.PathArg [108, 115, 10] ∧ SetterCall.PathArg [47] := by
    decide +kernel
  obtain ⟨s, hrun, hsent⟩ : ∃ s, checkedRun Sys.step anyStep oneClient lsDelivery = some s ∧
      .sent 1 0 (SetterCall.fileExecNoInter [108, 115, 10] [47] 0).wire ∈ s.log :=
    exists_checkedRun (by decide +kernel)
  obtain ⟨-, s₁, h₁, hrest⟩ := checkedRun_cons.mp hrun
  have hstart : Reach Sys.step anyStep (· = s₁) s₁ := .start rfl
  obtain ⟨id, hn, hcarries, -⟩ := submitted_is_sent oneClient_reach (.inl ⟨0, rfl⟩) hpath.1 hpath.2
    ⟨_, rfl⟩ rfl h₁ (hstart.checkedRun hrest) hsent
  exact ⟨s, oneClient_reach.checkedRun hrun, _, hsent, id, hn, hcarries⟩

end Delivery

end DistQueue
