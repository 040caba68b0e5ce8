import DistQueue.Proto.Transfer

/-!
# What a setter puts in comes out of the getters

The round trip over the wire has three parts that do not know of each other.
A setter leaves a message whose getters answer its arguments and whose header
announces exactly the bytes those getters read (`SetterCall.readBack`,
`SetterCall.size_apply`). Getters only read below the announced size, so they
cannot tell the sent message from any block that starts with its wire bytes
(`SetterCall.readBack_congr`). And the transfer loops deliver the wire bytes,
however the stream is cut (`Transfer.lean`).
-/

namespace DistQueue

open DistQueue.Lib

/-- A call of one of the setters, with its arguments. -/
inductive SetterCall
  | fileExecNoInter (fileEx workingDir : List UInt8) (jobId : UInt16)
  | fileExecInter (fileEx workingDir : List UInt8) (addr : UInt32) (port : UInt16)
      (jobId : UInt16)
  | jobState (jobState : JobStateMsg)
  | queueState (queueState : QueueStateMsg)
  | unsubmit (jobid : UInt16)
  | badParams
  | checkExecServer
  | fileExecNoInterClient (fileEx workingDir : List UInt8) (jobId : UInt16)
  | fileExecInterClient (fileEx workingDir : List UInt8) (addr : UInt32)
      (port : UInt16) (jobId : UInt16)
  | closedConnection
  | jobID (jobid : UInt16)
  | jobStateClient (jobid : UInt16)
  | queueStateClient (queueid : UInt8)
  | unsubmitClient (jobid : UInt16)
  | closedConnectionExecServer
  | jobReq
  | jobRun (jobId : UInt16)
  | jobDone (jobId : UInt16) (eStatus : UInt8)
  | jobSignaled (jobId : UInt16) (eStatus : UInt8)
  | checkExecServerAck

namespace SetterCall

def apply (msg : Msg) : SetterCall → Msg
  | .fileExecNoInter f w j => setFileExecNoInter msg f w j
  | .fileExecInter f w a p j => setFileExecInter msg f w a p j
  | .jobState js => setJobState msg js
  | .queueState qs => setQueueState msg qs
  | .unsubmit j => setUnsubmit msg j
  | .badParams => setBadParams msg
  | .checkExecServer => setCheckExecServer msg
  | .fileExecNoInterClient f w j => setFileExecNoInterClient msg f w j
  | .fileExecInterClient f w a p j => setFileExecInterClient msg f w a p j
  | .closedConnection => setClosedConnection msg
  | .jobID j => setJobID msg j
  | .jobStateClient j => setJobStateClient msg j
  | .queueStateClient q => setQueueStateClient msg q
  | .unsubmitClient j => setUnsubmitClient msg j
  | .closedConnectionExecServer => setClosedConnectionExecServer msg
  | .jobReq => setJobReq msg
  | .jobRun j => setJobRun msg j
  | .jobDone j e => setJobDone msg j e
  | .jobSignaled j e => setJobSignaled msg j e
  | .checkExecServerAck => setCheckExecServerAck msg

def type : SetterCall → MsgType
  | .fileExecNoInter .. => .sendjobNointer
  | .fileExecInter .. => .sendjobInter
  | .jobState _ => .jobstateResp
  | .queueState _ => .questateResp
  | .unsubmit _ => .unsubResp
  | .badParams => .badParams
  | .checkExecServer => .chExecSer
  | .fileExecNoInterClient .. => .subNoInter
  | .fileExecInterClient .. => .subInteractive
  | .closedConnection => .clientClosed
  | .jobID _ => .subResp
  | .jobStateClient _ => .jobstate
  | .queueStateClient _ => .questate
  | .unsubmitClient _ => .unsub
  | .closedConnectionExecServer => .serverClosed
  | .jobReq => .jobReq
  | .jobRun _ => .jobRun
  | .jobDone .. => .jobDone
  | .jobSignaled .. => .jobSig
  | .checkExecServerAck => .chExecSerAck

/-- How many bytes the payload of each kind has. -/
def size : SetterCall → Nat
  | .fileExecNoInter .. | .fileExecNoInterClient .. =>
      sizeofHeader + sizeofJobID + sizeofFileExec
  | .fileExecInter .. | .fileExecInterClient .. =>
      sizeofHeader + sizeofJobID + 4 + 2 + sizeofFileExec
  | .jobState _ | .jobRun _ | .jobDone .. | .jobSignaled .. =>
      sizeofHeader + sizeofJobState
  | .queueState _ => sizeofHeader + sizeofQueueState
  | .queueStateClient _ => sizeofHeader + sizeofQueueID
  | .unsubmit _ | .jobID _ | .jobStateClient _ | .unsubmitClient _ =>
      sizeofHeader + sizeofJobID
  | .badParams | .checkExecServer | .closedConnection | .closedConnectionExecServer
  | .jobReq | .checkExecServerAck => sizeofHeader

/-- A string argument: no NUL in it, and shorter than `SZ_PATH`. -/
def PathArg (s : List UInt8) : Prop := (∀ b ∈ s, (b != 0) = true) ∧ s.length < szPath

instance (s : List UInt8) : Decidable (PathArg s) := inferInstanceAs (Decidable (_ ∧ _))

def ArgsOk : SetterCall → Prop
  | .fileExecNoInter f w _ | .fileExecNoInterClient f w _
  | .fileExecInter f w _ _ _ | .fileExecInterClient f w _ _ _ => PathArg f ∧ PathArg w
  | _ => True

/-- The getters of the type of message `c` builds answer `c`'s arguments. -/
def ReadBack (m : Msg) : SetterCall → Prop
  | .fileExecNoInter f w j | .fileExecNoInterClient f w j =>
      cstr (getExecFileExecExecfile m) = f ∧ cstr (getExecFileExecWdir m) = w ∧
        getExecJid m = j ∧ getJobIDNoIter m = j
  | .fileExecInter f w a p j | .fileExecInterClient f w a p j =>
      cstr (getExecAddrFileExecExecfile m) = f ∧ cstr (getExecAddrFileExecWdir m) = w ∧
        getExecAddrIpadd m = a ∧ getExecAddrPort m = p ∧
        getExecAddrJid m = j ∧ getJobIDIter m = j
  | .jobState js =>
      getJobStateID m = js.jobid ∧ getJobStateState m = js.state ∧
        getJobStateExitValue m = js.exitValue
  | .queueState qs =>
      getQueueStateID m = qs.queueid ∧ getQueueStateState m = qs.state
  | .unsubmit j | .jobID j | .jobStateClient j | .unsubmitClient j => getJobID m = j
  | .queueStateClient q => getQueueID m = q
  | .jobRun j =>
      getJobStateID m = j ∧ getJobStateState m = JobState.run.toByte ∧
        getJobStateExitValue m = 0
  | .jobDone j e =>
      getJobStateID m = j ∧ getJobStateState m = (doneState e).toByte ∧
        getJobStateExitValue m = e
  | .jobSignaled j e =>
      getJobStateID m = j ∧ getJobStateState m = JobState.signaled.toByte ∧
        getJobStateExitValue m = e
  | .badParams | .checkExecServer | .closedConnection | .closedConnectionExecServer
  | .jobReq | .checkExecServerAck => True

/-! ## The setter -/

variable (m : Msg) (t : MsgType) (n : Nat)

theorem header_sz8 : (m.header t n).get .sz8 = store16 (htons (UInt16.ofNat n)) := by
  simp [Msg.header]

theorem header_type : (m.header t n).get .type = [t.toByte] := by
  rw [Msg.header, Msg.get_put16_apart _ _ (by decide), Msg.get_put8]

theorem header_version : (m.header t n).get .version = store16 (htons ver1) := by
  rw [Msg.header, Msg.get_put16_apart _ _ (by decide),
    Msg.get_put8_apart _ _ (by decide), Msg.get_put16]

/-- Whatever it wrote into, a setter announces the size of its payload, its
type and the one version there is. -/
theorem header_apply (c : SetterCall) :
    (c.apply m).get .sz8 = store16 (htons (UInt16.ofNat c.size)) ∧
      (c.apply m).get .type = [c.type.toByte] ∧
      (c.apply m).get .version = store16 (htons ver1) := by
  cases c <;>
    simp (disch := decide) only [apply, size, type, setFileExecNoInter,
      setFileExecInter, setJobState, setQueueState, setUnsubmit, setBadParams,
      setCheckExecServer, setFileExecNoInterClient, setFileExecInterClient,
      setClosedConnection, setJobID, setJobStateClient, setQueueStateClient,
      setUnsubmitClient, setClosedConnectionExecServer, setJobReq, setJobRun,
      setJobDone, setJobSignaled, setCheckExecServerAck, Msg.withJobID,
      Msg.withReport, Msg.get_put8_apart, Msg.get_put16_apart, Msg.get_put32_apart,
      Msg.get_putStr_apart, header_sz8, header_type, header_version, and_self]

theorem sized_size (c : SetterCall) :
    sizeofHeader ≤ c.size ∧ c.size ≤ sizeofMsg ∧ c.size < 2 ^ 16 := by
  cases c <;> simp only [size] <;> decide

theorem size_apply (c : SetterCall) : (getSize8 (c.apply m)).toNat = c.size := by
  rw [getSize8, Msg.get16, (header_apply m c).1, load16_store16, ntohs_htons,
    UInt16.toNat_ofNat', Nat.mod_eq_of_lt (sized_size c).2.2]

theorem sized_apply (c : SetterCall) : (c.apply m).Sized := by
  have hs := sized_size c
  rw [Msg.Sized, size_apply]
  exact ⟨hs.1, hs.2.1⟩

theorem cstr_pathArg {s : List UInt8} (hs : PathArg s) {n : Nat} (hn : szPath ≤ n) :
    cstr (strncpy n s) = s :=
  cstr_strncpy_of_lt hs.1 (Nat.le_trans (Nat.le_of_lt hs.2) hn)

/-- The getters on the setter's own message. -/
theorem readBack (c : SetterCall) (hc : c.ArgsOk) : c.ReadBack (c.apply m) := by
  cases c with
  | fileExecNoInter f w j | fileExecNoInterClient f w j =>
      obtain ⟨hf, hw⟩ := hc
      simp (disch := decide) only [ReadBack, apply, setFileExecNoInter,
        setFileExecNoInterClient, getExecFileExecExecfile, getExecFileExecWdir,
        getExecJid, getJobIDNoIter, Msg.get16, Msg.get_put16, Msg.get_putStr,
        Msg.get_put16_apart, Msg.get_putStr_apart, load16_store16, ntohs_htons,
        cstr_pathArg hf, cstr_pathArg hw, and_self]
  | fileExecInter f w a p j | fileExecInterClient f w a p j =>
      obtain ⟨hf, hw⟩ := hc
      simp (disch := decide) only [ReadBack, apply, setFileExecInter,
        setFileExecInterClient, getExecAddrFileExecExecfile, getExecAddrFileExecWdir,
        getExecAddrIpadd, getExecAddrPort, getExecAddrJid, getJobIDIter, Msg.get16,
        Msg.get32, Msg.get_put16, Msg.get_put32, Msg.get_putStr, Msg.get_put16_apart,
        Msg.get_put32_apart, Msg.get_putStr_apart, load16_store16, load32_store32,
        ntohs_htons, cstr_pathArg hf, cstr_pathArg hw, and_self]
  | jobState js =>
      simp (disch := decide) only [ReadBack, apply, setJobState, getJobStateID,
        getJobStateState, getJobStateExitValue, Msg.get8, Msg.get16, Msg.get_put8,
        Msg.get_put16, Msg.get_put8_apart, load16_store16, ntohs_htons,
        List.getD_cons_zero, and_self]
  | queueState qs =>
      simp (disch := decide) only [ReadBack, apply, setQueueState, getQueueStateID,
        getQueueStateState, Msg.get8, Msg.get_put8, Msg.get_put8_apart,
        List.getD_cons_zero, and_self]
  | unsubmit j | jobID j | jobStateClient j | unsubmitClient j =>
      simp only [ReadBack, apply, setUnsubmit, setJobID, setJobStateClient,
        setUnsubmitClient, Msg.withJobID, getJobID, Msg.get16, Msg.get_put16,
        load16_store16, ntohs_htons]
  | queueStateClient q =>
      simp only [ReadBack, apply, setQueueStateClient, getQueueID, Msg.get8,
        Msg.get_put8, List.getD_cons_zero]
  | jobRun _ | jobDone _ _ | jobSignaled _ _ =>
      simp (disch := decide) only [ReadBack, apply, setJobRun, setJobDone,
        setJobSignaled, Msg.withReport, getJobStateID, getJobStateState,
        getJobStateExitValue, Msg.get8, Msg.get16, Msg.get_put8, Msg.get_put16,
        Msg.get_put8_apart, load16_store16, ntohs_htons, List.getD_cons_zero, and_self]
  | badParams | checkExecServer | closedConnection | closedConnectionExecServer
  | jobReq | checkExecServerAck => trivial

/-- The getters of `c`'s type only read the first `c.size` bytes. -/
theorem readBack_congr {m m' : Msg} (c : SetterCall)
    (h : m.bytes.take c.size = m'.bytes.take c.size) (hm : c.ReadBack m) :
    c.ReadBack m' := by
  obtain ⟨k, hk⟩ : ∃ k, c.size = k := ⟨_, rfl⟩
  rw [hk] at h
  have hget : ∀ {n : Nat} (f : Field n), f.off + n ≤ k → m'.get f = m.get f :=
    fun f hf => (Msg.get_congr h hf).symm
  cases c with (simp only [size] at hk; subst hk)
  | fileExecNoInter f w j | fileExecNoInterClient f w j =>
      simpa (disch := decide) only [ReadBack, getExecFileExecExecfile,
        getExecFileExecWdir, getExecJid, getJobIDNoIter, Msg.get16, hget] using hm
  | fileExecInter f w a p j | fileExecInterClient f w a p j =>
      simpa (disch := decide) only [ReadBack, getExecAddrFileExecExecfile,
        getExecAddrFileExecWdir, getExecAddrIpadd, getExecAddrPort, getExecAddrJid,
        getJobIDIter, Msg.get16, Msg.get32, hget] using hm
  | jobState _ | jobRun _ | jobDone _ _ | jobSignaled _ _ =>
      simpa (disch := decide) only [ReadBack, getJobStateID, getJobStateState,
        getJobStateExitValue, Msg.get8, Msg.get16, hget] using hm
  | queueState qs =>
      simpa (disch := decide) only [ReadBack, getQueueStateID, getQueueStateState,
        Msg.get8, hget] using hm
  | unsubmit j | jobID j | jobStateClient j | unsubmitClient j =>
      simpa (disch := decide) only [ReadBack, getJobID, Msg.get16, hget] using hm
  | queueStateClient q =>
      simpa (disch := decide) only [ReadBack, getQueueID, Msg.get8, hget] using hm
  | badParams | checkExecServer | closedConnection | closedConnectionExecServer
  | jobReq | checkExecServerAck => trivial

end SetterCall

/-! ## A sequence of messages -/

/-- One message on its way: the setter call with the old contents of the block
it fills, and what `send` and `recv` do for it on either side. -/
structure Transfer where
  call : SetterCall
  scratch : Msg
  around : Int → UInt8
  sendSched : List IoResult
  buf : Msg
  recvSched : List IoResult

namespace Transfer

variable (t : Transfer)

def msg : Msg := t.call.apply t.scratch

/-- What reaches the stream, and what `sendMsg` returns. -/
def send : List UInt8 × Option Int := sendMsg t.sendSched t.msg t.around

/-- Arguments as the callers promise them, no interruption, and schedules with
an entry for every call even if each one moves a single byte. -/
structure Ok : Prop where
  args : t.call.ArgsOk
  sendPieces : Pieces t.sendSched
  recvPieces : Pieces t.recvSched
  sendLen : sizeofMsg ≤ t.sendSched.length
  recvLen : sizeofMsg ≤ t.recvSched.length

end Transfer

/-- What one `recvMsg` call left behind. -/
structure Received where
  code : Int
  msg : Msg
  consumed : Nat

/-- Successive `recvMsg` calls on one stream, until one does not return 1. -/
def recvAll : List (List IoResult × Msg) → List UInt8 → List Received
  | [], _ => []
  | (sched, buf) :: calls, stream =>
      match recvMsg sched stream buf with
      | .ret code msg rest =>
          ⟨code, msg, stream.length - rest.length⟩ ::
            if code = 1 then recvAll calls rest else []
      | .blocked .. | .overflow => []

/-- The call returned 1 with the message the setter was asked for. -/
structure Delivered (t : Transfer) (r : Received) : Prop where
  code : r.code = 1
  type : getType r.msg = getType t.msg
  version : getVersion r.msg = getVersion t.msg
  size : (getSize8 r.msg).toNat = r.consumed
  args : t.call.ReadBack r.msg

def wireOf (ts : List Transfer) : List UInt8 := ts.flatMap fun t => t.send.1

def recvCalls (ts : List Transfer) : List (List IoResult × Msg) :=
  ts.map fun t => (t.recvSched, t.buf)

namespace Transfer

variable {t : Transfer}

theorem sized : t.msg.Sized := SetterCall.sized_apply _ _

theorem size_msg : (getSize8 t.msg).toNat = t.call.size := SetterCall.size_apply _ _

theorem length_wire : t.msg.wire.length = t.call.size := by
  rw [Msg.length_wire sized, size_msg]

theorem send_eq (h : t.Ok) : t.send = (t.msg.wire, some 1) :=
  sendMsg_pieces h.sendPieces sized (by
    rw [length_wire]; exact Nat.le_trans (SetterCall.sized_size _).2.1 h.sendLen)

theorem recv_eq (h : t.Ok) (rest : List UInt8) :
    recvMsg t.recvSched (t.msg.wire ++ rest) t.buf =
      .ret 1 (t.buf.over t.msg.wire) rest :=
  recvMsg_complete sized h.recvPieces (by
    rw [length_wire]; exact Nat.le_trans (SetterCall.sized_size _).2.1 h.recvLen)

/-- Any block that starts with the wire bytes is the message delivered. -/
theorem delivered (h : t.Ok) :
    Delivered t ⟨1, t.buf.over t.msg.wire, t.call.size⟩ := by
  have hsz : sizeofHeader ≤ t.call.size := (SetterCall.sized_size _).1
  have htake : (t.buf.over t.msg.wire).bytes.take t.call.size =
      t.msg.bytes.take t.call.size := by
    have hover := Msg.take_wire_over (@sized t) t.buf
    rw [size_msg] at hover
    rw [hover, Msg.wire, size_msg]
  have hget : ∀ {n : Nat} (f : Field n), f.off + n ≤ sizeofHeader →
      (t.buf.over t.msg.wire).get f = t.msg.get f :=
    fun f hf => Msg.get_congr htake (Nat.le_trans hf hsz)
  refine ⟨rfl, ?_, ?_, ?_, ?_⟩
  · rw [getType, getType, Msg.get8, Msg.get8, hget _ (by decide)]
  · rw [getVersion, getVersion, Msg.get16, Msg.get16, hget _ (by decide)]
  · rw [getSize8, Msg.get16, hget _ (by decide)]
    exact size_msg
  · exact SetterCall.readBack_congr _ htake.symm (SetterCall.readBack _ _ h.args)

end Transfer

/-- A call whose message is at the head of the stream is answered, and the
calls after it see the rest. -/
theorem recvAll_cons {t : Transfer} (h : t.Ok) (calls : List (List IoResult × Msg))
    (rest : List UInt8) :
    recvAll ((t.recvSched, t.buf) :: calls) (t.send.1 ++ rest) =
      ⟨1, t.buf.over t.msg.wire, t.call.size⟩ :: recvAll calls rest := by
  rw [Transfer.send_eq h, recvAll, Transfer.recv_eq h]
  simp only [List.length_append, Nat.add_sub_cancel, Transfer.length_wire, if_pos]

/-- Every message in front of `tail` is delivered before `tail` is looked at. -/
theorem recvAll_append (calls : List (List IoResult × Msg)) (tail : List UInt8) :
    ∀ ts : List Transfer, (∀ t ∈ ts, t.Ok) →
      ∃ rs, List.Forall₂ Delivered ts rs ∧
        recvAll (recvCalls ts ++ calls) (wireOf ts ++ tail) = rs ++ recvAll calls tail := by
  intro ts
  induction ts with
  | nil => intro _; exact ⟨[], .nil, rfl⟩
  | cons t ts ih =>
      intro hok
      have ht := hok t (by simp)
      obtain ⟨rs, hrs, heq⟩ := ih fun t ht => hok t (by simp [ht])
      refine ⟨_ :: rs, .cons (Transfer.delivered ht) hrs, ?_⟩
      simp only [recvCalls, wireOf, List.map_cons, List.flatMap_cons, List.cons_append,
        List.append_assoc] at heq ⊢
      rw [recvAll_cons ht, heq]

/-- The round trip: `sendMsg` returns 1 for every message, the `recvMsg` calls
deliver them in order and consume the whole stream, and a stream that ends
inside a message delivers the ones before it and answers 0 for that one. -/
theorem wire_round_trip {ts : List Transfer} (hok : ∀ t ∈ ts, t.Ok) :
    (∀ t ∈ ts, t.send.2 = some 1) ∧
      List.Forall₂ Delivered ts (recvAll (recvCalls ts) (wireOf ts)) ∧
      ∀ {pre post : List Transfer} {t : Transfer} {cut : List UInt8},
        ts = pre ++ t :: post → cut <+: t.send.1 → cut ≠ t.send.1 →
        ∃ rs r, recvAll (recvCalls ts) (wireOf pre ++ cut) = rs ++ [r] ∧
          List.Forall₂ Delivered pre rs ∧ r.code = 0 := by
  refine ⟨fun t ht => by rw [Transfer.send_eq (hok t ht)], ?_, ?_⟩
  · obtain ⟨rs, hrs, heq⟩ := recvAll_append [] [] ts hok
    simp only [List.append_nil, recvAll] at heq
    rw [heq]
    exact hrs
  · rintro pre post t cut rfl hpre hne
    have ht := hok t (by simp)
    obtain ⟨rs, hrs, heq⟩ := recvAll_append (recvCalls (t :: post)) cut pre
      fun t ht => hok t (by simp [ht])
    rw [Transfer.send_eq ht] at hpre hne
    have hlt : cut.length < t.msg.wire.length :=
      Nat.lt_of_le_of_ne hpre.length_le fun h => hne (hpre.eq_of_length h)
    have hle : t.msg.wire.length ≤ sizeofMsg := by
      rw [Transfer.length_wire]; exact (SetterCall.sized_size _).2.1
    obtain ⟨buf', hcut⟩ := recvMsg_cut t.buf Transfer.sized ht.recvPieces hpre hlt
      (Nat.lt_of_lt_of_le hlt (Nat.le_trans hle ht.recvLen))
    refine ⟨rs, ⟨0, buf', cut.length⟩, ?_, hrs, rfl⟩
    simp only [recvCalls, List.map_append, List.map_cons] at heq ⊢
    rw [heq, recvAll, hcut]
    rfl

/-- A message sent a byte at a time and received three at a time, into a block
full of ones. -/
def inPieces (call : SetterCall) : Transfer where
  call := call
  scratch := .fill 0
  around := fun _ => 0
  sendSched := List.replicate sizeofMsg (.moved 1)
  buf := .fill 0xff
  recvSched := List.replicate sizeofMsg (.moved 3)

theorem inPieces_ok {call : SetterCall} (h : call.ArgsOk) : (inPieces call).Ok where
  args := h
  sendPieces := fun r hr => ⟨0, List.eq_of_mem_replicate hr⟩
  recvPieces := fun r hr => ⟨2, List.eq_of_mem_replicate hr⟩
  sendLen := by simp [inPieces]
  recvLen := by simp [inPieces]

/-- `ls` is submitted in `/`, cancelled, and the connection closed; then the same
with the stream at its end behind two bytes of the second message. -/
theorem wire_round_trip_submission :
    let ts := [inPieces (.fileExecNoInterClient [108, 115, 10] [47] 0),
      inPieces (.unsubmitClient 7), inPieces .closedConnection]
    List.Forall₂ Delivered ts (recvAll (recvCalls ts) (wireOf ts)) ∧
      ∃ rs r, recvAll (recvCalls ts)
          (wireOf (ts.take 1) ++ (inPieces (.unsubmitClient 7)).send.1.take 2) = rs ++ [r] ∧
        List.Forall₂ Delivered (ts.take 1) rs ∧ r.code = 0 := by
  intro ts
  have hargs : SetterCall.PathArg [108, 115, 10] ∧ SetterCall.PathArg [47] := by decide +kernel
  have hok : ∀ t ∈ ts, t.Ok :=
    List.forall_mem_cons.mpr ⟨inPieces_ok hargs, List.forall_mem_cons.mpr
      ⟨inPieces_ok trivial, List.forall_mem_singleton.mpr (inPieces_ok trivial)⟩⟩
  exact ⟨(wire_round_trip hok).2.1, @(wire_round_trip hok).2.2 (ts.take 1) _ _ _ rfl
    (List.take_prefix 2 _) (by decide +kernel)⟩

end DistQueue
