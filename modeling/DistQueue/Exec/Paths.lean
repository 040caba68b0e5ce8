import DistQueue.Client.Commands
import DistQueue.Exec.Kind
import DistQueue.Server.Console

/-!
# Where the paths end

The line and the directory of a job are copied from field to field, always by
`strncpy` and always into a field of the same size: from the client's message
into the job, from there into the message to the exec server, and the line once
more into `line_cpy`. Such a copy has a NUL exactly if what it was made of has
one, so nothing on the way mends a path that came in without, and nothing breaks
one that came in with it. Whether the readers stop inside the field, in whatever
process, is decided by the message the main server takes in; and in the client,
which fills that by `strncpy` too, by the length of what was typed.
-/

namespace DistQueue

open DistQueue.Lib

/-! ## The two paths of a job -/

/-- `File_Exec` -/
@[ext] structure FileExec where
  execFile : List UInt8
  workingDir : List UInt8
  length_execFile : execFile.length = szPath * numPath
  length_workingDir : workingDir.length = szPath

def getExecFileExec (pkg : Msg) : FileExec :=
  ⟨getExecFileExecExecfile pkg, getExecFileExecWdir pkg, Msg.length_get .., Msg.length_get ..⟩

def getExecAddrFileExec (pkg : Msg) : FileExec :=
  ⟨getExecAddrFileExecExecfile pkg, getExecAddrFileExecWdir pkg, Msg.length_get ..,
    Msg.length_get ..⟩

namespace FileExec

/-- Both are terminated. -/
def Ends (f : FileExec) : Prop := 0 ∈ f.execFile ∧ 0 ∈ f.workingDir

instance (f : FileExec) : Decidable f.Ends := inferInstanceAs (Decidable (_ ∧ _))

/-- The two `strncpy` of a string each. -/
def ofStrings (line dir : List UInt8) : FileExec :=
  ⟨strncpy (szPath * numPath) line, strncpy szPath dir, length_strncpy .., length_strncpy ..⟩

/-- And of two paths. -/
def copy (f : FileExec) : FileExec := ofStrings f.execFile f.workingDir

theorem ends_ofStrings {line dir : List UInt8} :
    (ofStrings line dir).Ends ↔
      (cstr line).length < szPath * numPath ∧ (cstr dir).length < szPath :=
  and_congr nul_mem_strncpy_iff nul_mem_strncpy_iff

theorem ends_copy {f : FileExec} : f.copy.Ends ↔ f.Ends :=
  and_congr (nul_mem_strncpy_field f.length_execFile) (nul_mem_strncpy_field f.length_workingDir)

theorem cstr_execFile_copy (f : FileExec) : cstr f.copy.execFile = cstr f.execFile :=
  cstr_strncpy_field f.length_execFile

theorem cstr_workingDir_copy (f : FileExec) : cstr f.copy.workingDir = cstr f.workingDir :=
  cstr_strncpy_field f.length_workingDir

theorem copy_copy (f : FileExec) : f.copy.copy = f.copy := by
  simp only [copy, ofStrings, strncpy_strncpy]

end FileExec

/-- The paths in a message from a client. -/
def submittedFileExec (pkg : Msg) : FileExec :=
  if getType pkg = MsgType.subNoInter.toByte then getExecFileExec pkg else getExecAddrFileExec pkg

/-- The paths in a message to an exec server. -/
def sentFileExec (pkg : Msg) : FileExec :=
  if getType pkg = MsgType.sendjobNointer.toByte then getExecFileExec pkg
  else getExecAddrFileExec pkg

/-! ## What the child reads -/

section Reads

variable (calls : Calls) (behind : Behind) (pkg : Msg)

/-- A path that is read where it lies in the message. -/
def pathRead {n : Nat} (f : Field n) : StrRead :=
  ⟨pkg.get f, pkg.bytes.drop (f.off + n) ++ behind.pkg⟩

/-- `line_cpy`, for `strtok_r`. -/
def lineRead (line : List UInt8) : StrRead := ⟨strncpy (szPath * numPath) line, behind.line⟩

/-- The `chdir` of `setFDsNoIter`, if it comes to that. -/
def setFDsNoIterReads : List StrRead :=
  if calls.openCout && calls.openCerr && calls.openDevNull && calls.dupStdout &&
      calls.dupStderr && calls.dupStdin then
    [pathRead behind pkg .execWorkingDir]
  else []

/-- The `chdir` of `setFDsIter`, likewise. -/
def setFDsIterReads : Except UInt8 (List StrRead) := do
  let sockClient ← socketPortConnect calls (getExecAddrPort pkg) (getExecAddrIpadd pkg)
  .ok
    (if sockClient.isSome && calls.dupStdout && calls.dupStderr && calls.dupStdin then
      [pathRead behind pkg .addrWorkingDir]
    else [])

/-- What `consumeJob` reads as strings on its way to `execvp`. -/
def consumeJobReads : List StrRead :=
  if getType pkg = MsgType.sendjobNointer.toByte then
    setFDsNoIterReads calls behind pkg ++ [lineRead behind (getExecFileExecExecfile pkg)]
  else if getType pkg = MsgType.sendjobInter.toByte then
    match setFDsIterReads calls behind pkg with
    | .error _ => []
    | .ok reads => reads ++ [lineRead behind (getExecAddrFileExecExecfile pkg)]
  else []

end Reads

section Child

variable {calls : Calls} {behind : Behind} {pkg : Msg} {r : StrRead}

theorem string_pathRead {n : Nat} (f : Field n) :
    (pathRead behind pkg f).string = pathAt behind pkg f := by
  rw [StrRead.string, pathRead, pathAt, pkg.drop_off f, List.append_assoc]

theorem mem_setFDsNoIterReads (hr : r ∈ setFDsNoIterReads calls behind pkg) :
    r = pathRead behind pkg .execWorkingDir := by
  unfold setFDsNoIterReads at hr
  split at hr
  · exact List.mem_singleton.mp hr
  · cases hr

theorem mem_setFDsIterReads {reads : List StrRead}
    (h : setFDsIterReads calls behind pkg = .ok reads) (hr : r ∈ reads) :
    r = pathRead behind pkg .addrWorkingDir := by
  obtain ⟨sockClient, -, h⟩ := bind_ok h
  injection h with h
  subst h
  split at hr
  · exact List.mem_singleton.mp hr
  · cases hr

/-- The directory is read in the message, the line in its copy. -/
theorem mem_consumeJobReads (hr : r ∈ consumeJobReads calls behind pkg) :
    r.field = (sentFileExec pkg).workingDir ∨ r.field = (sentFileExec pkg).copy.execFile := by
  unfold consumeJobReads at hr
  unfold sentFileExec
  split at hr
  · next hno =>
      rw [if_pos hno]
      rcases List.mem_append.mp hr with hr | hr
      · exact .inl (by rw [mem_setFDsNoIterReads hr]; rfl)
      · exact .inr (by rw [List.mem_singleton.mp hr]; rfl)
  · next hno =>
      rw [if_neg hno]
      split at hr
      · split at hr
        · cases hr
        · next reads hreads =>
            rcases List.mem_append.mp hr with hr | hr
            · exact .inl (by rw [mem_setFDsIterReads hreads hr]; rfl)
            · exact .inr (by rw [List.mem_singleton.mp hr]; rfl)
      · cases hr

theorem consumeJobReads_ends (hends : (sentFileExec pkg).Ends)
    (hr : r ∈ consumeJobReads calls behind pkg) : r.Ends := by
  rw [StrRead.ends_iff]
  rcases mem_consumeJobReads hr with hr | hr
  · rw [hr]
    exact hends.2
  · rw [hr]
    exact (FileExec.ends_copy.mpr hends).1

theorem setFDsNoIterReads_of_setUp (hno : getType pkg = MsgType.sendjobNointer.toByte)
    (hset : SetUp calls pkg) :
    setFDsNoIterReads calls behind pkg = [pathRead behind pkg .execWorkingDir] := by
  obtain ⟨hout, herr, hin, -, hopen⟩ := hset
  rw [if_pos hno] at hopen
  obtain ⟨hcout, hcerr, hnull⟩ := hopen
  simp [setFDsNoIterReads, hout, herr, hin, hcout, hcerr, hnull]

theorem setFDsIterReads_of_setUp (hno : getType pkg ≠ MsgType.sendjobNointer.toByte)
    (hset : SetUp calls pkg) :
    setFDsIterReads calls behind pkg = .ok [pathRead behind pkg .addrWorkingDir] := by
  obtain ⟨hout, herr, hin, -, hconn⟩ := hset
  rw [if_neg hno] at hconn
  obtain ⟨hhost, hsock, hconn⟩ := hconn
  simp [setFDsIterReads, socketPortConnect, hhost, hsock, hconn, hout, herr, hin, bind,
    Except.bind]

theorem setFDsNoIter_wdir (hno : getType pkg = MsgType.sendjobNointer.toByte)
    {dir : List UInt8} (hdir : (setFDsNoIter calls behind pkg .forked).wdir = some dir) :
    SetUp calls pkg ∧ pathAt behind pkg .execWorkingDir = dir := by
  rcases @setFDsNoIter_cases calls behind _ hno with ⟨hset, heq⟩ | ⟨-, hnone⟩
  · rw [heq] at hdir
    injection hdir with hdir
    exact ⟨hset, hdir⟩
  · rw [hnone] at hdir
    cases hdir

theorem setFDsIter_wdir (hno : getType pkg ≠ MsgType.sendjobNointer.toByte) {proc : Proc}
    (h : setFDsIter calls behind pkg .forked = .ok proc) {dir : List UInt8}
    (hdir : proc.wdir = some dir) :
    SetUp calls pkg ∧ pathAt behind pkg .addrWorkingDir = dir := by
  have hhost : calls.gethostbyaddr = true := by
    cases hhost : calls.gethostbyaddr
    · unfold setFDsIter socketPortConnect at h
      rw [hhost] at h
      cases h
    · rfl
  obtain ⟨proc', h', hcases⟩ := @setFDsIter_cases _ behind _ hno hhost
  rw [h'] at h
  injection h with h
  subst h
  rcases hcases with ⟨hset, rfl⟩ | ⟨-, hnone⟩
  · injection hdir with hdir
    exact ⟨hset, hdir⟩
  · rw [hnone] at hdir
    cases hdir

/-- A command that is executed has the words of the string that `strtok_r` was
given, and was executed in the directory that `chdir` was given, if any. -/
theorem consumeJob_exec {proc : Proc} (hexec : consumeJob calls behind pkg = .exec proc) :
    ∃ reads, consumeJobReads calls behind pkg =
        reads ++ [lineRead behind (sentFileExec pkg).execFile] ∧
      proc.args = parseLine (sentFileExec pkg).execFile behind.line ∧
      ∀ dir, proc.wdir = some dir →
        ∃ r ∈ reads, r.field = (sentFileExec pkg).workingDir ∧ r.string = dir := by
  unfold consumeJob at hexec
  unfold consumeJobReads sentFileExec
  split at hexec
  · next hno =>
      obtain ⟨-, rfl⟩ := execLine_eq_exec.mp hexec
      rw [if_pos hno, if_pos hno]
      refine ⟨setFDsNoIterReads calls behind pkg, rfl, rfl, fun dir hdir => ?_⟩
      obtain ⟨hset, hpath⟩ := setFDsNoIter_wdir hno hdir
      rw [setFDsNoIterReads_of_setUp hno hset]
      exact ⟨_, List.mem_singleton_self _, rfl, (string_pathRead _).trans hpath⟩
  · next hno =>
      split at hexec
      · next hinter =>
          split at hexec
          · cases hexec
          · next hproc =>
              obtain ⟨-, rfl⟩ := execLine_eq_exec.mp hexec
              obtain ⟨sockClient, hsock, -⟩ := bind_ok hproc
              obtain ⟨reads, hreads⟩ : ∃ reads, setFDsIterReads calls behind pkg = .ok reads :=
                ⟨_, by rw [setFDsIterReads, hsock]; rfl⟩
              rw [if_neg hno, if_neg hno, if_pos hinter, hreads]
              refine ⟨reads, rfl, rfl, fun dir hdir => ?_⟩
              obtain ⟨hset, hpath⟩ := setFDsIter_wdir hno hproc hdir
              rw [setFDsIterReads_of_setUp hno hset] at hreads
              injection hreads with hreads
              rw [← hreads]
              exact ⟨_, List.mem_singleton_self _, rfl, (string_pathRead _).trans hpath⟩
      · cases hexec

/-- Where the paths end in their fields, it has nothing else. -/
theorem consumeJob_ends {proc : Proc} (hends : (sentFileExec pkg).Ends)
    (hexec : consumeJob calls behind pkg = .exec proc) :
    (∀ dir, proc.wdir = some dir → dir = cstr (sentFileExec pkg).workingDir) ∧
      proc.args = (words isSep (cstr (sentFileExec pkg).execFile)).take (argMax - 1) := by
  obtain ⟨reads, hreads, hargs, hwdir⟩ := consumeJob_exec hexec
  have hall : ∀ r ∈ reads ++ [lineRead behind (sentFileExec pkg).execFile], r.Ends :=
    fun r hr => consumeJobReads_ends hends (hreads ▸ hr)
  constructor
  · intro dir hdir
    obtain ⟨r, hr, hfield, rfl⟩ := hwdir dir hdir
    rw [StrRead.string_of_ends (hall r (List.mem_append_left _ hr)), hfield]
  · have hline := hall _ (List.mem_append_right _ (List.mem_singleton_self _))
    rw [hargs, parseLine_eq]
    refine congrArg (fun s => (words isSep s).take (argMax - 1)) ?_
    exact (StrRead.string_of_ends hline).trans (FileExec.cstr_execFile_copy _)

end Child

/-! ## From the one message to the other -/

/-- A message of one of the two kinds that bring a job. -/
def Msg.Submission (pkg : Msg) : Prop :=
  getType pkg = MsgType.subNoInter.toByte ∨ getType pkg = MsgType.subInteractive.toByte

instance (pkg : Msg) : Decidable pkg.Submission := inferInstanceAs (Decidable (_ ∨ _))

section Copies

variable {job : Job} {f : FileExec} {pkg m : Msg}

/-- The paths of a job are the copies of `f`. -/
def Job.HasPaths (job : Job) (f : FileExec) : Prop :=
  job.execFile = f.copy.execFile ∧ job.workingDir = f.copy.workingDir

/-- The job that `attendClient` makes of a submission. -/
theorem receiveClient_paths {N : Nat} (hpkg : pkg.Submission) (heap : Heap) (blank : Job) :
    ∃ job, (receiveClient heap pkg blank : Option Job × Pc N) = (some job, .newJob heap.length) ∧
      job.HasPaths (submittedFileExec pkg) := by
  rcases hpkg with hpkg | hpkg
  · refine ⟨_, submitNoInter_taken hpkg heap blank, ?_⟩
    rw [submittedFileExec, if_pos hpkg]
    exact ⟨rfl, rfl⟩
  · have hno : getType pkg ≠ MsgType.subNoInter.toByte := by rw [hpkg]; decide
    refine ⟨_, submitInter_taken hpkg heap blank, ?_⟩
    rw [submittedFileExec, if_neg hno]
    exact ⟨rfl, rfl⟩

/-- Its paths as they arrive at an exec server. -/
theorem sentFileExec_arrived (hjob : job.HasPaths f) (h : job.call.Arrived m) :
    sentFileExec m = f.copy := by
  rw [← f.copy_copy]
  by_cases hip : job.ipaddr = 0
  · obtain ⟨htype, hfile, hdir, -⟩ := arrived_noInter hip h
    rw [hjob.1] at hfile
    rw [hjob.2] at hdir
    rw [sentFileExec, if_pos htype]
    exact FileExec.ext hfile hdir
  · obtain ⟨htype, hfile, hdir, -⟩ := arrived_inter hip h
    have hno : getType m ≠ MsgType.sendjobNointer.toByte := by rw [htype]; decide
    rw [hjob.1] at hfile
    rw [hjob.2] at hdir
    rw [sentFileExec, if_neg hno]
    exact FileExec.ext hfile hdir

/-- The paths of what a client typed, as they arrive at the main server. -/
theorem submittedFileExec_arrived {c : SetterCall} {line dir : List UInt8}
    (hc : c.Submits line dir) (h : c.Arrived pkg) :
    pkg.Submission ∧ submittedFileExec pkg = .ofStrings line dir := by
  rcases hc with ⟨jobid, rfl⟩ | ⟨addr, port, jobid, rfl⟩
  · have htype : getType pkg = MsgType.subNoInter.toByte := h.getType
    obtain ⟨hfile, hdir⟩ := h.paths_noInter (.inr rfl)
    rw [submittedFileExec, if_pos htype]
    exact ⟨.inl htype, FileExec.ext hfile hdir⟩
  · have htype : getType pkg = MsgType.subInteractive.toByte := h.getType
    have hno : getType pkg ≠ MsgType.subNoInter.toByte := by rw [htype]; decide
    obtain ⟨hfile, hdir⟩ := h.paths_inter (.inr rfl)
    rw [submittedFileExec, if_neg hno]
    exact ⟨.inr htype, FileExec.ext hfile hdir⟩

end Copies

/-! ## The readers -/

section Readers

variable {N : Nat} [NeZero N]

/-- Whoever reads a path of job `p` stops inside the field: the console, and a
child that consumes what was sent, which has then nothing in its directory and
its arguments but what is in `f`. -/
structure Sys.ReadsEnd (s : Sys N) (p : Ptr) (f : FileExec) : Prop where
  printed : ∀ i behind, ∀ e ∈ (printQueueJobs (s.server.queue i) s.heap behind).jobs,
    e.job = p → e.execFile.Ends ∧ e.workingDir.Ends
  consumed : ∀ t wire, .sent t p wire ∈ s.log → ∀ (buf : Msg) calls behind,
    ∀ r ∈ consumeJobReads calls behind (buf.over wire), r.Ends
  used : ∀ t wire, .sent t p wire ∈ s.log → ∀ (buf : Msg) calls behind proc,
    consumeJob calls behind (buf.over wire) = .exec proc →
      (∀ dir, proc.wdir = some dir → dir = cstr f.workingDir) ∧
        proc.args = (words isSep (cstr f.execFile)).take (argMax - 1)

variable (N) in
/-- In every run that takes `pkg` in, and in each of its states from there on. -/
def Msg.ReadsEnd (pkg : Msg) : Prop :=
  ∀ (s s₁ s₂ : Sys N) (t : Nat) (blank : Job), Reach Sys.step anyStep (· = Sys.init N) s →
    s.threads[t]? = some .attendClient → s.step (.receive t pkg blank) = some s₁ →
    Reach Sys.step anyStep (· = s₁) s₂ → s₂.ReadsEnd s.heap.length (submittedFileExec pkg)

omit [NeZero N] in
theorem Sys.Follows.readsEnd {s : Sys N} {t : Nat} {p : Ptr} {job : Job} {f : FileExec}
    (hf : s.Follows t p job) (hjob : job.HasPaths f) (hends : f.Ends) : s.ReadsEnd p f := by
  have hsent : ∀ {i wire}, .sent i p wire ∈ s.log → ∀ buf : Msg,
      sentFileExec (buf.over wire) = f.copy := fun {i wire} hsent buf => by
    obtain ⟨id, -, rfl⟩ := hf.sent _ hsent i wire rfl
    exact @sentFileExec_arrived { job with id := id } _ _ hjob ⟨buf, rfl⟩
  have hcopy := FileExec.ends_copy.mpr hends
  refine ⟨fun i behind e he hp => ?_, fun i wire hlog buf calls behind r hr => ?_,
    fun i wire hlog buf calls behind proc hexec => ?_⟩
  · obtain ⟨-, contents, hload, hprinted⟩ := mem_printJobs he
    obtain ⟨id, hbody⟩ := hf.body
    rw [hp] at hload
    rw [Heap.contents_of_load hload] at hbody
    injection hbody with hbody
    rw [hprinted, hbody, StrRead.ends_iff, StrRead.ends_iff]
    exact ⟨hjob.1 ▸ hcopy.1, hjob.2 ▸ hcopy.2⟩
  · exact consumeJobReads_ends ((hsent hlog buf).symm ▸ hcopy) hr
  · have h := consumeJob_ends ((hsent hlog buf).symm ▸ hcopy) hexec
    rw [hsent hlog buf, f.cstr_workingDir_copy, f.cstr_execFile_copy] at h
    exact h

/-- A message is read to its end, and no further, exactly if its paths are
terminated: the console alone would tell otherwise. -/
theorem readsEnd_iff {pkg : Msg} (hpkg : pkg.Submission) :
    pkg.ReadsEnd N ↔ (submittedFileExec pkg).Ends := by
  constructor
  · intro hreads
    obtain ⟨job, hjob, hpaths⟩ := receiveClient_paths (N := N) hpkg [] Action.blankJob
    obtain ⟨s, s₁, s₂, hs, ht, hheap, h₁, h₂, i, queued, hlive, hload, hfile, hdir⟩ :=
      exists_queued hjob
    have hlisting : (printQueueJobs (s₂.server.queue i) s₂.heap fun _ => []).jobs =
        [queued.printed 0 []] := by
      simp only [printQueueJobs, hlive, printJobs, Heap.deref, hload]
    obtain ⟨hends, hends'⟩ := (hreads s s₁ s₂ 0 _ hs ht h₁ h₂).printed i _ (queued.printed 0 [])
      (hlisting ▸ List.mem_singleton_self _) (by rw [hheap]; rfl)
    rw [StrRead.ends_iff] at hends hends'
    exact FileExec.ends_copy.mp ⟨hpaths.1 ▸ hfile ▸ hends, hpaths.2 ▸ hdir ▸ hends'⟩
  · intro hends s s₁ s₂ t blank hs ht h₁ h₂
    obtain ⟨job, hjob, hpaths⟩ := receiveClient_paths (N := N) hpkg s.heap blank
    have hr₁ : Reach Sys.step anyStep (· = Sys.init N) s₁ := .step hs trivial h₁
    exact (follows_of_run hr₁ (follows_of_receive hs ht hjob h₁) h₂).readsEnd hpaths hends

/-- For every message that brings a job, and for every line and directory a
client submits. -/
theorem paths_end_iff (N : Nat) [NeZero N] :
    (∀ pkg : Msg, pkg.Submission → (pkg.ReadsEnd N ↔ (submittedFileExec pkg).Ends)) ∧
      ∀ (calls : Client.Calls) (line dir : List UInt8), calls.getline = some line →
        calls.getcwd = some dir → ∀ command, command = .submit ∨ command = .submiti →
          ∃ request pc, Client.run calls command = (some request, pc) ∧
            ((∀ pkg, request.Arrived pkg → pkg.ReadsEnd N) ↔
              (cstr line).length < szPath * numPath ∧ (cstr dir).length < szPath) := by
  have hrequest : ∀ {request : SetterCall} {line dir : List UInt8},
      request.Submits line dir → ((∀ pkg, request.Arrived pkg → pkg.ReadsEnd N) ↔
        (cstr line).length < szPath * numPath ∧ (cstr dir).length < szPath) := by
    intro request line dir hsubmits
    rw [← FileExec.ends_ofStrings]
    constructor
    · intro hreads
      have harrived : request.Arrived ((Msg.fill 0).over request.wire) := ⟨_, rfl⟩
      obtain ⟨hpkg, hpaths⟩ := submittedFileExec_arrived hsubmits harrived
      exact hpaths ▸ (readsEnd_iff hpkg).mp (hreads _ harrived)
    · intro hends pkg harrived
      obtain ⟨hpkg, hpaths⟩ := submittedFileExec_arrived hsubmits harrived
      exact (readsEnd_iff hpkg).mpr (hpaths.symm ▸ hends)
  refine ⟨fun pkg hpkg => readsEnd_iff hpkg, fun calls line dir hline hdir command hcommand => ?_⟩
  rcases hcommand with rfl | rfl
  · refine ⟨.fileExecNoInterClient line dir 0, .clientProtocol false, ?_, hrequest (.inl ⟨0, rfl⟩)⟩
    rw [Client.run, Client.getArgsSubmit, hline, hdir]
  · refine ⟨.fileExecInterClient line dir calls.addr calls.port 0, .clientProtocol true, ?_,
      hrequest (.inr ⟨_, _, 0, rfl⟩)⟩
    rw [Client.run, Client.getArgsSubmitInt, hline, hdir]

end Readers

section Lines

/-- What the client reads of a user who submits `line` in `/`. -/
def typed (line : List UInt8) : Client.Calls := ⟨some line, some [47], 0, 0⟩

/-- `ls`, and a message whose line takes up all of its field but one byte. -/
theorem paths_end_iff_ls :
    Msg.ReadsEnd numQueueMax ((Msg.fill 0).over
        (SetterCall.fileExecNoInterClient (List.replicate 255 97) [47] 0).wire) ∧
      ∃ request pc, Client.run (typed [108, 115, 10]) .submit = (some request, pc) ∧
        ∀ pkg, request.Arrived pkg → pkg.ReadsEnd numQueueMax := by
  obtain ⟨hmessages, hlines⟩ := paths_end_iff numQueueMax
  obtain ⟨request, pc, hrun, hiff⟩ :=
    hlines (typed [108, 115, 10]) _ _ rfl rfl .submit (.inl rfl)
  exact ⟨(hmessages _ (by decide +kernel)).mpr (by decide +kernel), request, pc, hrun,
    hiff.mpr (by decide)⟩

/-- A line that takes up all of its field, and a newline. -/
def longLine : List UInt8 := List.replicate (szPath * numPath) 97 ++ [10]

def longCall : SetterCall := .fileExecNoInterClient longLine [47] 0

/-- Taken in by thread 0 and queued. -/
def longQueued : List Action :=
  [.receive 0 ((Msg.fill 0).over longCall.wire) Action.blankJob, .go 0, .go 0, .go 0, .go 0]

/-- And fetched by an exec server on thread 1. -/
def longSent : List Action :=
  longQueued ++ [.acceptExecServ, .request 1, .go 1, .go 1, .go 1, .go 1]

/-- The console reads on into the directory, and `strtok_r` into what lies
behind `line_cpy`. -/
theorem long_line_read_on :
    Client.run (typed longLine) .submit = (some longCall, .clientProtocol false) ∧
      ¬ ((Msg.fill 0).over longCall.wire).ReadsEnd numQueueMax ∧
      (∃ s : Sys numQueueMax, Reach Sys.step anyStep (· = Sys.init numQueueMax) s ∧
        s.fault = none ∧ ∃ e ∈ (printQueueJobs (s.server.queue 0) s.heap fun _ => []).jobs,
          ¬ e.execFile.Ends ∧ e.execFile.string = List.replicate (szPath * numPath) 97 ++ [47]) ∧
      ∃ s : Sys numQueueMax, Reach Sys.step anyStep (· = Sys.init numQueueMax) s ∧
        s.fault = none ∧ ∃ wire, .sent 1 0 wire ∈ s.log ∧
          ∃ r ∈ consumeJobReads (lsCalls 0) ⟨[98], []⟩ ((Msg.fill 0).over wire),
            ¬ r.Ends ∧ r.string = List.replicate (szPath * numPath) 97 ++ [98] := by
  have hpkg : ((Msg.fill 0).over longCall.wire).Submission := by decide +kernel
  refine ⟨rfl, fun hreads => ?_, ?_, ?_⟩
  · exact absurd ((readsEnd_iff hpkg).mp hreads) (by decide +kernel)
  · obtain ⟨s, hrun, hfault, hprinted⟩ : ∃ s,
        checkedRun Sys.step anyStep oneClient longQueued = some s ∧ s.fault = none ∧
          ∃ e ∈ (printQueueJobs (s.server.queue 0) s.heap fun _ => []).jobs,
            ¬ e.execFile.Ends ∧ e.execFile.string = List.replicate (szPath * numPath) 97 ++ [47] :=
      exists_checkedRun (by decide +kernel)
    exact ⟨s, oneClient_reach.checkedRun hrun, hfault, hprinted⟩
  · obtain ⟨s, hrun, hfault, hsent⟩ : ∃ s,
        checkedRun Sys.step anyStep oneClient longSent = some s ∧ s.fault = none ∧
          .sent 1 0 (SetterCall.fileExecNoInter longLine [47] 0).wire ∈ s.log :=
      exists_checkedRun (by decide +kernel)
    refine ⟨s, oneClient_reach.checkedRun hrun, hfault, _, hsent, ?_⟩
    decide +kernel

end Lines

end DistQueue
