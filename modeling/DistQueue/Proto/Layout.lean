import DistQueue.Lib.Bytes

/-!
# The message as bytes

`Msg` is a packed header followed by a packed union of six payloads, so what a
receiver sees of a message is decided by offsets alone. The model keeps that:
a message is `sizeofMsg` bytes, a `Field` is a stretch of them that provably
lies inside, and every getter is one read of a field.

The hosts are little-endian. `htons` is the byte swap it is on such a host,
and a field that the source stores without it (`port`, `ipaddr`) is stored in
host order here too.
-/

namespace DistQueue

open DistQueue.Lib

/-- `SZ_PATH` -/
def szPath : Nat := 256

/-- `NUM_PATH` -/
def numPath : Nat := 1

/-- `VER_1` -/
def ver1 : UInt16 := 0x8001

/-- `Type`: what a message is, in the order of the enumeration. -/
inductive MsgType
  | subNoInter | subInteractive | subResp | jobstate | jobstateResp | questate
  | questateResp | unsub | unsubResp | sendjobNointer | sendjobInter | chExecSer
  | chExecSerAck | jobReq | jobDone | jobRun | jobSig | clientClosed
  | serverClosed | badParams
  deriving DecidableEq, Repr

/-- `JOB_STATE` -/
inductive JobState
  | wait | run | finished | unsubmited | signaled | error
  deriving DecidableEq, Repr

/-- `QUEUE_STATE` -/
inductive QueueState
  | avail | full
  deriving DecidableEq, Repr

def MsgType.toByte (t : MsgType) : UInt8 := UInt8.ofNat t.ctorIdx

def JobState.toByte (s : JobState) : UInt8 := UInt8.ofNat s.ctorIdx

def QueueState.toByte (s : QueueState) : UInt8 := UInt8.ofNat s.ctorIdx

/-! ## Integers in memory -/

def store16 (v : UInt16) : List UInt8 :=
  [UInt8.ofNat (v.toNat % 256), UInt8.ofNat (v.toNat / 256)]

def load16 (bs : List UInt8) : UInt16 :=
  UInt16.ofNat ((bs.getD 0 0).toNat + 256 * (bs.getD 1 0).toNat)

def store32 (v : UInt32) : List UInt8 :=
  [UInt8.ofNat (v.toNat % 256), UInt8.ofNat (v.toNat / 256 % 256),
    UInt8.ofNat (v.toNat / 65536 % 256), UInt8.ofNat (v.toNat / 16777216)]

def load32 (bs : List UInt8) : UInt32 :=
  UInt32.ofNat ((bs.getD 0 0).toNat + 256 * (bs.getD 1 0).toNat +
    65536 * (bs.getD 2 0).toNat + 16777216 * (bs.getD 3 0).toNat)

/-- The byte swap; `ntohs` is the same function. -/
def htons (v : UInt16) : UInt16 := UInt16.ofNat (v.toNat % 256 * 256 + v.toNat / 256)

def ntohs (v : UInt16) : UInt16 := htons v

@[simp] theorem length_store16 (v : UInt16) : (store16 v).length = 2 := rfl

@[simp] theorem length_store32 (v : UInt32) : (store32 v).length = 4 := rfl

@[simp] theorem load16_store16 (v : UInt16) : load16 (store16 v) = v := by
  have hv := v.toNat_lt
  refine UInt16.toNat_inj.mp ?_
  simp only [load16, store16, List.getD_cons_zero, List.getD_cons_succ,
    UInt8.toNat_ofNat', UInt16.toNat_ofNat']
  omega

@[simp] theorem load32_store32 (v : UInt32) : load32 (store32 v) = v := by
  have hv := v.toNat_lt
  refine UInt32.toNat_inj.mp ?_
  simp only [load32, store32, List.getD_cons_zero, List.getD_cons_succ,
    UInt8.toNat_ofNat', UInt32.toNat_ofNat']
  omega

theorem store16_load16 {bs : List UInt8} (h : bs.length = 2) : store16 (load16 bs) = bs := by
  obtain ⟨a, b, rfl⟩ : ∃ a b, bs = [a, b] := by
    match bs, h with
    | [a, b], _ => exact ⟨a, b, rfl⟩
  have ha := a.toNat_lt
  have hb := b.toNat_lt
  simp only [store16, load16, List.getD_cons_zero, List.getD_cons_succ, UInt16.toNat_ofNat']
  have hlo : UInt8.ofNat ((a.toNat + 256 * b.toNat) % 2 ^ 16 % 256) = a := by
    refine UInt8.toNat_inj.mp ?_
    rw [UInt8.toNat_ofNat']
    omega
  have hhi : UInt8.ofNat ((a.toNat + 256 * b.toNat) % 2 ^ 16 / 256) = b := by
    refine UInt8.toNat_inj.mp ?_
    rw [UInt8.toNat_ofNat']
    omega
  rw [hlo, hhi]

theorem store32_load32 {bs : List UInt8} (h : bs.length = 4) : store32 (load32 bs) = bs := by
  obtain ⟨a, b, c, d, rfl⟩ : ∃ a b c d, bs = [a, b, c, d] := by
    match bs, h with
    | [a, b, c, d], _ => exact ⟨a, b, c, d, rfl⟩
  have ha := a.toNat_lt
  have hb := b.toNat_lt
  have hc := c.toNat_lt
  have hd := d.toNat_lt
  simp only [store32, load32, List.getD_cons_zero, List.getD_cons_succ, UInt32.toNat_ofNat']
  have h0 : (a.toNat + 256 * b.toNat + 65536 * c.toNat + 16777216 * d.toNat) % 2 ^ 32 % 256 =
      a.toNat := by omega
  have h1 : (a.toNat + 256 * b.toNat + 65536 * c.toNat + 16777216 * d.toNat) % 2 ^ 32 / 256 % 256 =
      b.toNat := by omega
  have h2 : (a.toNat + 256 * b.toNat + 65536 * c.toNat + 16777216 * d.toNat) % 2 ^ 32 / 65536 %
      256 = c.toNat := by omega
  have h3 : (a.toNat + 256 * b.toNat + 65536 * c.toNat + 16777216 * d.toNat) % 2 ^ 32 / 16777216 =
      d.toNat := by omega
  rw [h0, h1, h2, h3, UInt8.ofNat_toNat, UInt8.ofNat_toNat, UInt8.ofNat_toNat, UInt8.ofNat_toNat]

@[simp] theorem ntohs_htons (v : UInt16) : ntohs (htons v) = v := by
  have hv := v.toNat_lt
  have hlo : (v.toNat % 256 * 256 + v.toNat / 256) % 2 ^ 16 =
      v.toNat % 256 * 256 + v.toNat / 256 := Nat.mod_eq_of_lt (by omega)
  have hdiv : (v.toNat % 256 * 256 + v.toNat / 256) / 256 = v.toNat % 256 := by omega
  have hmod : (v.toNat % 256 * 256 + v.toNat / 256) % 256 = v.toNat / 256 := by omega
  refine UInt16.toNat_inj.mp ?_
  simp only [ntohs, htons, UInt16.toNat_ofNat', hlo, hdiv, hmod]
  rw [Nat.div_add_mod', Nat.mod_eq_of_lt hv]

/-! ## The block and its fields -/

def sizeofHeader : Nat := 5
def sizeofJobID : Nat := 2
def sizeofQueueID : Nat := 1
def sizeofJobState : Nat := 4
def sizeofQueueState : Nat := 2
def sizeofFileExec : Nat := szPath * numPath + szPath

/-- The union is as long as its longest member, `Job_Exec_Addr`. -/
def sizeofMsg : Nat := sizeofHeader + (sizeofJobID + 2 + 4 + sizeofFileExec)

/-- A stretch of a message, `len` bytes long. -/
structure Field (len : Nat) where
  off : Nat
  inside : off + len ≤ sizeofMsg

section Apart

variable {n k : Nat}

/-- `f` ends before `g` starts, or the other way round. -/
def Field.Apart (f : Field n) (g : Field k) : Prop := f.off + n ≤ g.off ∨ g.off + k ≤ f.off

instance (f : Field n) (g : Field k) : Decidable (f.Apart g) :=
  inferInstanceAs (Decidable (_ ∨ _))

end Apart

/-- A message in memory. -/
structure Msg where
  bytes : List UInt8
  size : bytes.length = sizeofMsg
  deriving DecidableEq

theorem Msg.ext {a b : Msg} (h : a.bytes = b.bytes) : a = b := by
  cases a; cases b; cases h; rfl

/-- A message full of one byte: some contents for an uninitialised local. -/
def Msg.fill (b : UInt8) : Msg := ⟨List.replicate sizeofMsg b, by simp⟩

section Access

variable {n k : Nat} (m : Msg)

def Msg.get (f : Field n) : List UInt8 := slice m.bytes f.off n

def Msg.put (f : Field n) (bs : List UInt8) (h : bs.length = n) : Msg :=
  ⟨splice m.bytes f.off bs, by
    rw [length_splice (by rw [h, m.size]; exact f.inside), m.size]⟩

@[simp] theorem Msg.length_get (f : Field n) : (m.get f).length = n :=
  length_slice (by rw [m.size]; exact f.inside)

/-- Memory from a field on starts with the field. -/
theorem Msg.drop_off (f : Field n) :
    m.bytes.drop f.off = m.get f ++ m.bytes.drop (f.off + n) := by
  rw [Msg.get, slice, ← List.drop_drop, List.take_append_drop]

@[simp] theorem Msg.get_put_self (f : Field n) (bs : List UInt8) (h : bs.length = n) :
    (m.put f bs h).get f = bs := by
  have hs : slice (splice m.bytes f.off bs) f.off bs.length = bs :=
    slice_splice_self (by rw [h, m.size]; exact f.inside)
  rw [h] at hs
  exact hs

theorem Msg.get_put_apart {f : Field n} {g : Field k} (bs : List UInt8)
    (h : bs.length = n) (hfg : f.Apart g) : (m.put f bs h).get g = m.get g := by
  have hin : f.off + bs.length ≤ m.bytes.length := by rw [h, m.size]; exact f.inside
  rcases hfg with hfg | hfg
  · exact slice_splice_after hin (by rw [h]; exact hfg)
  · exact slice_splice_before hin hfg

end Access

/-- Messages that agree on their first `k` bytes agree on every field that
ends there or earlier. -/
theorem Msg.get_congr {m m' : Msg} {k n : Nat} (h : m.bytes.take k = m'.bytes.take k)
    {f : Field n} (hf : f.off + n ≤ k) : m.get f = m'.get f :=
  slice_eq_of_take_eq h hf

namespace Field

def sz8 : Field 2 := ⟨0, by decide⟩
def version : Field 2 := ⟨2, by decide⟩
def type : Field 1 := ⟨4, by decide⟩

/-- `payload.jobid.job_id`; `Job_Exec` and `Job_Exec_Addr` start with it too. -/
def jobid : Field 2 := ⟨sizeofHeader, by decide⟩
def queueid : Field 1 := ⟨sizeofHeader, by decide⟩

def jobState : Field 1 := ⟨sizeofHeader, by decide⟩
def jobStateJobid : Field 2 := ⟨sizeofHeader + 1, by decide⟩
def jobStateExitValue : Field 1 := ⟨sizeofHeader + 3, by decide⟩

def queueState : Field 1 := ⟨sizeofHeader, by decide⟩
def queueStateQueueid : Field 1 := ⟨sizeofHeader + 1, by decide⟩

/-- `payload.job_exec.file_exec` -/
def execFile : Field (szPath * numPath) := ⟨sizeofHeader + 2, by decide⟩
def execWorkingDir : Field szPath := ⟨sizeofHeader + 2 + szPath * numPath, by decide⟩

/-- `payload.job_exec_addr` -/
def addrPort : Field 2 := ⟨sizeofHeader + 2, by decide⟩
def addrIpaddr : Field 4 := ⟨sizeofHeader + 4, by decide⟩
def addrExecFile : Field (szPath * numPath) := ⟨sizeofHeader + 8, by decide⟩
def addrWorkingDir : Field szPath := ⟨sizeofHeader + 8 + szPath * numPath, by decide⟩

end Field

def Msg.get8 (m : Msg) (f : Field 1) : UInt8 := (m.get f).getD 0 0

def Msg.get16 (m : Msg) (f : Field 2) : UInt16 := load16 (m.get f)

def Msg.get32 (m : Msg) (f : Field 4) : UInt32 := load32 (m.get f)

/-! ## Getters -/

def getVersion (hdr : Msg) : UInt16 := ntohs (hdr.get16 .version)
def getSize8 (hdr : Msg) : UInt16 := ntohs (hdr.get16 .sz8)
def getType (hdr : Msg) : UInt8 := hdr.get8 .type

def getExecAddrJid (pkg : Msg) : UInt16 := ntohs (pkg.get16 .jobid)
def getExecAddrIpadd (pkg : Msg) : UInt32 := pkg.get32 .addrIpaddr
def getExecAddrPort (pkg : Msg) : UInt16 := pkg.get16 .addrPort
def getExecAddrFileExecExecfile (pkg : Msg) : List UInt8 := pkg.get .addrExecFile
def getExecAddrFileExecWdir (pkg : Msg) : List UInt8 := pkg.get .addrWorkingDir

def getExecJid (pkg : Msg) : UInt16 := ntohs (pkg.get16 .jobid)
def getExecFileExecExecfile (pkg : Msg) : List UInt8 := pkg.get .execFile
def getExecFileExecWdir (pkg : Msg) : List UInt8 := pkg.get .execWorkingDir

def getJobID (pkg : Msg) : UInt16 := ntohs (pkg.get16 .jobid)
def getJobIDNoIter (pkg : Msg) : UInt16 := ntohs (pkg.get16 .jobid)
def getJobIDIter (pkg : Msg) : UInt16 := ntohs (pkg.get16 .jobid)
def getQueueID (pkg : Msg) : UInt8 := pkg.get8 .queueid

def getJobStateID (pkg : Msg) : UInt16 := ntohs (pkg.get16 .jobStateJobid)
def getJobStateState (pkg : Msg) : UInt8 := pkg.get8 .jobState
def getJobStateExitValue (pkg : Msg) : UInt8 := pkg.get8 .jobStateExitValue

def getQueueStateID (pkg : Msg) : UInt8 := pkg.get8 .queueStateQueueid
def getQueueStateState (pkg : Msg) : UInt8 := pkg.get8 .queueState

end DistQueue
