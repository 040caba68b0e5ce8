import DistQueue.Proto.RoundTrip

/-!
# What a setter sends

A setter writes into a message with other contents, and the bytes it leaves
alone are exactly those behind the announced size. So the bytes on the wire are
a function of the call alone, and so is what a receiver can read of them.
-/

namespace DistQueue

open DistQueue.Lib

namespace Msg

variable {m m' : Msg} {k k' n : Nat}

/-- Messages that agree up to a field and on the field agree up to its end. -/
theorem take_extend (f : Field n) (hf : f.off = k ∧ k + n = k')
    (h : m.bytes.take k = m'.bytes.take k) (hget : m.get f = m'.get f) :
    m.bytes.take k' = m'.bytes.take k' := by
  obtain ⟨rfl, rfl⟩ := hf
  rw [List.take_add, List.take_add, h]
  exact congrArg _ hget

/-- Messages that agree on the three header fields agree on the header. -/
theorem take_header (hsz8 : m.get .sz8 = m'.get .sz8) (hversion : m.get .version = m'.get .version)
    (htype : m.get .type = m'.get .type) : m.bytes.take 5 = m'.bytes.take 5 := by
  have h0 : m.bytes.take 0 = m'.bytes.take 0 := rfl
  have h2 : m.bytes.take 2 = m'.bytes.take 2 := take_extend .sz8 (by decide) h0 hsz8
  have h4 : m.bytes.take 4 = m'.bytes.take 4 := take_extend .version (by decide) h2 hversion
  exact take_extend .type (by decide) h4 htype

end Msg

namespace SetterCall

variable (m m' : Msg)

theorem take_header (c : SetterCall) :
    (c.apply m).bytes.take 5 = (c.apply m').bytes.take 5 := by
  obtain ⟨hsz8, htype, hversion⟩ := header_apply m c
  obtain ⟨hsz8', htype', hversion'⟩ := header_apply m' c
  exact Msg.take_header (hsz8.trans hsz8'.symm) (hversion.trans hversion'.symm)
    (htype.trans htype'.symm)

/-- A setter fills in every byte that is sent. -/
theorem take_size (c : SetterCall) :
    (c.apply m).bytes.take c.size = (c.apply m').bytes.take c.size := by
  have hheader := take_header m m' c
  cases c with (simp only [size])
  | badParams | checkExecServer | closedConnection | closedConnectionExecServer
  | jobReq | checkExecServerAck => exact hheader
  | unsubmit j | jobID j | jobStateClient j | unsubmitClient j =>
      refine Msg.take_extend .jobid (by decide) hheader ?_
      simp only [apply, setUnsubmit, setJobID, setJobStateClient, setUnsubmitClient,
        Msg.withJobID, Msg.get_put16]
  | queueStateClient q =>
      refine Msg.take_extend .queueid (by decide) hheader ?_
      simp only [apply, setQueueStateClient, Msg.get_put8]
  | queueState qs =>
      refine Msg.take_extend .queueStateQueueid (k := 6) (by decide) ?_ ?_
      · refine Msg.take_extend .queueState (by decide) hheader ?_
        simp only [apply, setQueueState, Msg.get_put8]
      · simp (disch := decide) only [apply, setQueueState, Msg.get_put8, Msg.get_put8_apart]
  | jobState _ | jobRun _ | jobDone _ _ | jobSignaled _ _ =>
      refine Msg.take_extend .jobStateExitValue (k := 8) (by decide) ?_ ?_
      · refine Msg.take_extend .jobStateJobid (k := 6) (by decide) ?_ ?_
        · refine Msg.take_extend .jobState (by decide) hheader ?_
          simp (disch := decide) only [apply, setJobState, setJobRun, setJobDone, setJobSignaled,
            Msg.withReport, Msg.get_put8, Msg.get_put8_apart]
        · simp (disch := decide) only [apply, setJobState, setJobRun, setJobDone, setJobSignaled,
            Msg.withReport, Msg.get_put8_apart, Msg.get_put16]
      · simp only [apply, setJobState, setJobRun, setJobDone, setJobSignaled, Msg.withReport,
          Msg.get_put8]
  | fileExecNoInter f w j | fileExecNoInterClient f w j =>
      refine Msg.take_extend .execWorkingDir (k := 263) (by decide) ?_ ?_
      · refine Msg.take_extend .execFile (k := 7) (by decide) ?_ ?_
        · refine Msg.take_extend .jobid (by decide) hheader ?_
          simp only [apply, setFileExecNoInter, setFileExecNoInterClient, Msg.get_put16]
        · simp (disch := decide) only [apply, setFileExecNoInter, setFileExecNoInterClient,
            Msg.get_put16_apart, Msg.get_putStr_apart, Msg.get_putStr]
      · simp (disch := decide) only [apply, setFileExecNoInter, setFileExecNoInterClient,
          Msg.get_put16_apart, Msg.get_putStr]
  | fileExecInter f w a p j | fileExecInterClient f w a p j =>
      refine Msg.take_extend .addrWorkingDir (k := 269) (by decide) ?_ ?_
      · refine Msg.take_extend .addrExecFile (k := 13) (by decide) ?_ ?_
        · refine Msg.take_extend .addrIpaddr (k := 9) (by decide) ?_ ?_
          · refine Msg.take_extend .addrPort (k := 7) (by decide) ?_ ?_
            · refine Msg.take_extend .jobid (by decide) hheader ?_
              simp (disch := decide) only [apply, setFileExecInter, setFileExecInterClient,
                Msg.get_put16_apart, Msg.get_put32_apart, Msg.get_put16]
            · simp only [apply, setFileExecInter, setFileExecInterClient, Msg.get_put16]
          · simp (disch := decide) only [apply, setFileExecInter, setFileExecInterClient,
              Msg.get_put16_apart, Msg.get_put32]
        · simp (disch := decide) only [apply, setFileExecInter, setFileExecInterClient,
            Msg.get_put16_apart, Msg.get_put32_apart, Msg.get_putStr_apart, Msg.get_putStr]
      · simp (disch := decide) only [apply, setFileExecInter, setFileExecInterClient,
          Msg.get_put16_apart, Msg.get_put32_apart, Msg.get_putStr]

theorem wire_apply (c : SetterCall) : (c.apply m).wire = (c.apply m').wire := by
  rw [Msg.wire, Msg.wire, size_apply, size_apply, take_size m m' c]

/-- The bytes a call puts on the stream. -/
def wire (c : SetterCall) : List UInt8 := (c.apply (Msg.fill 0)).wire

@[simp] theorem apply_wire (c : SetterCall) : (c.apply m).wire = c.wire := wire_apply _ _ c

@[simp] theorem length_wire (c : SetterCall) : c.wire.length = c.size := by
  rw [wire, Msg.length_wire (sized_apply _ c), size_apply]

theorem wire_ne_nil (c : SetterCall) : c.wire ≠ [] := by
  have hpos : 0 < c.wire.length := by
    rw [length_wire]
    exact Nat.lt_of_lt_of_le (by decide) (sized_size c).1
  exact List.length_pos_iff.mp hpos

/-! ## What a receiver has then -/

/-- Up to the announced size, what was received is what the setter leaves in
any message it is given. -/
theorem take_over (c : SetterCall) :
    (m.over c.wire).bytes.take c.size = (c.apply m').bytes.take c.size := by
  have hover := Msg.take_wire_over (sized_apply m' c) m
  rw [apply_wire, size_apply] at hover
  rw [hover, ← apply_wire m' c, Msg.wire, size_apply]

theorem get_over (c : SetterCall) {n : Nat} {f : Field n} (hf : f.off + n ≤ c.size) :
    (m.over c.wire).get f = (c.apply m').get f :=
  Msg.get_congr (take_over m m' c) hf

theorem getType_over (c : SetterCall) : getType (m.over c.wire) = c.type.toByte := by
  have hf : Field.type.off + 1 ≤ c.size := (sized_size c).1
  rw [getType, Msg.get8, get_over m m c hf, (header_apply m c).2.1]
  rfl

/-- The arguments of a call are what is read behind a transfer. -/
theorem readBack_over (c : SetterCall) (hc : c.ArgsOk) : c.ReadBack (m.over c.wire) :=
  readBack_congr c (take_over m m c).symm (readBack m c hc)

/-- `pkg` is what the message of a call arrives as, whatever the buffer held. -/
def Arrived (c : SetterCall) (pkg : Msg) : Prop := ∃ buf : Msg, pkg = buf.over c.wire

theorem Arrived.readBack {c : SetterCall} {pkg : Msg} (h : c.Arrived pkg) (hc : c.ArgsOk) :
    c.ReadBack pkg := by
  obtain ⟨buf, rfl⟩ := h
  exact readBack_over buf c hc

theorem Arrived.getType {c : SetterCall} {pkg : Msg} (h : c.Arrived pkg) :
    DistQueue.getType pkg = c.type.toByte := by
  obtain ⟨buf, rfl⟩ := h
  exact getType_over buf c

end SetterCall

end DistQueue
