import DistQueue.Proto.Wire
import DistQueue.Server.Steps

/-!
# What a message means

A handler reads the fields of the type it finds in the header, and nothing
checks that the announced size reaches that far. The buffer is reused, so behind
the bytes of a short message stand those of an earlier one, or of whatever was
on the stack.

A message that covers what its handler reads means the same whatever stands
behind it, and so does a whole run of such messages. A message that does not
cover it can be told apart by its leftovers.
-/

namespace DistQueue

open DistQueue.Lib

/-! ## What a handler reads -/

namespace Msg

variable {n : Nat}

/-- The field is among the announced bytes. -/
def Covers (m : Msg) (f : Field n) : Prop := f.off + n ≤ (getSize8 m).toNat

instance (m : Msg) (f : Field n) : Decidable (m.Covers f) := inferInstanceAs (Decidable (_ ≤ _))

/-- The string in the field is, up to its NUL. -/
def CoversStr (m : Msg) (f : Field n) : Prop :=
  m.Covers f ∨ 0 ∈ (m.get f).take ((getSize8 m).toNat - f.off)

instance (m : Msg) (f : Field n) : Decidable (m.CoversStr f) :=
  inferInstanceAs (Decidable (_ ∨ _))

/-- All that `attendClient` reads of a message of this type. -/
def CoversClient (m : Msg) : Prop :=
  (getType m = MsgType.subNoInter.toByte → m.CoversStr .execFile ∧ m.CoversStr .execWorkingDir) ∧
  (getType m = MsgType.subInteractive.toByte → m.Covers .addrPort ∧ m.Covers .addrIpaddr ∧
    m.CoversStr .addrExecFile ∧ m.CoversStr .addrWorkingDir) ∧
  (getType m = MsgType.jobstate.toByte ∨ getType m = MsgType.unsub.toByte → m.Covers .jobid) ∧
  (getType m = MsgType.questate.toByte → m.Covers .queueid)

instance (m : Msg) : Decidable m.CoversClient := inferInstanceAs (Decidable (_ ∧ _ ∧ _ ∧ _))

/-- All that `attendExecServ` does. -/
def CoversExecServ (m : Msg) : Prop :=
  getType m = MsgType.jobRun.toByte ∨ getType m = MsgType.jobDone.toByte ∨
    getType m = MsgType.jobSig.toByte →
    m.Covers .jobState ∧ m.Covers .jobStateJobid ∧ m.Covers .jobStateExitValue

instance (m : Msg) : Decidable m.CoversExecServ := inferInstanceAs (Decidable (_ → _))

/-- Two buffers with one message in them, and anything behind it. -/
def Same (m m' : Msg) : Prop :=
  m.Sized ∧ m.bytes.take (getSize8 m).toNat = m'.bytes.take (getSize8 m).toNat

instance (m m' : Msg) : Decidable (m.Same m') := inferInstanceAs (Decidable (_ ∧ _))

section Same

variable {m m' : Msg}

theorem Same.get (h : m.Same m') {f : Field n} (hf : m.Covers f) : m.get f = m'.get f :=
  get_congr h.2 hf

theorem Same.type (h : m.Same m') : getType m = getType m' := by
  have hcovers : m.Covers Field.type := h.1.1
  rw [getType, getType, get8, get8, h.get hcovers]

/-- A covered string is copied as it was sent. -/
theorem Same.strncpy (h : m.Same m') {f : Field n} (hf : m.CoversStr f) :
    strncpy n (m.get f) = strncpy n (m'.get f) := by
  rcases hf with hf | hnul
  · rw [h.get hf]
  · refine strncpy_congr (k := (getSize8 m).toNat - f.off) ?_ (.inr hnul)
    have htake : ∀ x : Msg, (x.get f).take ((getSize8 m).toNat - f.off) =
        ((x.bytes.take (getSize8 m).toNat).drop f.off).take n := by
      intro x
      rw [Msg.get, slice, List.take_take, List.drop_take, List.take_take, Nat.min_comm]
    rw [htake, htake, h.2]

end Same

end Msg

section Handlers

variable {N : Nat} {m m' : Msg}

theorem receiveClient_congr (h : m.Same m') (hc : m.CoversClient) (heap : Heap) (blank : Job) :
    (receiveClient heap m blank : Option Job × Pc N) = receiveClient heap m' blank := by
  obtain ⟨hno, hinter, hjob, hqueue⟩ := hc
  unfold receiveClient
  dsimp only
  rw [← h.type]
  by_cases htype : getType m = MsgType.subNoInter.toByte
  · obtain ⟨hfile, hdir⟩ := hno htype
    rw [if_pos htype, if_pos htype, submitNoInter, submitNoInter, getExecFileExecExecfile,
      getExecFileExecExecfile, getExecFileExecWdir, getExecFileExecWdir, h.strncpy hfile,
      h.strncpy hdir]
  rw [if_neg htype, if_neg htype]
  by_cases htype : getType m = MsgType.subInteractive.toByte
  · obtain ⟨hport, haddr, hfile, hdir⟩ := hinter htype
    rw [if_pos htype, if_pos htype, submitInter, submitInter, getExecAddrFileExecExecfile,
      getExecAddrFileExecExecfile, getExecAddrFileExecWdir, getExecAddrFileExecWdir,
      h.strncpy hfile, h.strncpy hdir, getExecAddrPort, getExecAddrPort, getExecAddrIpadd,
      getExecAddrIpadd, Msg.get16, Msg.get16, Msg.get32, Msg.get32, h.get hport, h.get haddr]
  rw [if_neg htype, if_neg htype]
  have hid : getType m = MsgType.jobstate.toByte ∨ getType m = MsgType.unsub.toByte →
      getJobID m = getJobID m' := fun htype => by
    rw [getJobID, getJobID, Msg.get16, Msg.get16, h.get (hjob htype)]
  by_cases htype : getType m = MsgType.jobstate.toByte
  · rw [if_pos htype, if_pos htype, hid (.inl htype)]
  rw [if_neg htype, if_neg htype]
  by_cases htype : getType m = MsgType.questate.toByte
  · rw [if_pos htype, if_pos htype, getQueueID, getQueueID, Msg.get8, Msg.get8,
      h.get (hqueue htype)]
  rw [if_neg htype, if_neg htype]
  by_cases htype : getType m = MsgType.unsub.toByte
  · rw [if_pos htype, if_pos htype, hid (.inr htype)]
  rw [if_neg htype, if_neg htype]

theorem receiveExecServ_congr (h : m.Same m') (hc : m.CoversExecServ) :
    (receiveExecServ m : Pc N) = receiveExecServ m' := by
  unfold receiveExecServ
  dsimp only
  rw [← h.type]
  by_cases htype : getType m = MsgType.jobRun.toByte ∨ getType m = MsgType.jobDone.toByte ∨
      getType m = MsgType.jobSig.toByte
  · obtain ⟨hstate, hjobid, hexit⟩ := hc htype
    rw [getJobStateID, getJobStateID, getJobStateState, getJobStateState, getJobStateExitValue,
      getJobStateExitValue, Msg.get16, Msg.get16, Msg.get8, Msg.get8, Msg.get8, Msg.get8,
      h.get hstate, h.get hjobid, h.get hexit]
  · simp only [if_neg htype]

/-- Two steps that differ in what their local message holds before it is set. -/
def Env.Same (env env' : Env) : Prop :=
  env.ok = env'.ok ∧ env.pick = env'.pick ∧ env.blank = env'.blank

instance (env env' : Env) : Decidable (env.Same env') :=
  inferInstanceAs (Decidable (_ ∧ _ ∧ _))

/-- What is sent does not depend on that. -/
theorem Answer.wire_msg (answer : Answer) (m m' : Msg) :
    (answer.msg m).wire = (answer.msg m').wire := by
  cases answer with
  | badParams => exact SetterCall.wire_apply m m' .badParams
  | jobState reported => exact SetterCall.wire_apply m m' (.jobState reported)
  | queueState reported => exact SetterCall.wire_apply m m' (.queueState reported)
  | unsubmit jobid found => exact SetterCall.wire_apply m m' (.unsubmit jobid)

theorem Job.wire_msg (job : Job) (m m' : Msg) : (job.msg m).wire = (job.msg m').wire := by
  unfold Job.msg
  split
  · exact SetterCall.wire_apply m m' (.fileExecNoInter ..)
  · exact SetterCall.wire_apply m m' (.fileExecInter ..)

theorem Pc.run_congr [NeZero N] {env env' : Env} (h : env.Same env') (pc : Pc N)
    (server : MainServer N) (heap : Heap) (t : Nat) :
    pc.run server heap t env = pc.run server heap t env' := by
  obtain ⟨hok, -, hblank⟩ := h
  cases pc with
  | putJob caller i job wait => cases wait <;> rfl
  | getJob i wait => cases wait <;> rfl
  | numberJob => simp only [Pc.run, numberJobSection, hblank]
  | submittedResponse job queueIdx newJobid =>
      have hwire : (setJobID env.stack newJobid).wire = (setJobID env'.stack newJobid).wire :=
        SetterCall.wire_apply _ _ (.jobID newJobid)
      simp only [Pc.run, submittedResponseStep, hok, hwire]
  | reply answer => simp only [Pc.run, replyStep, hok, answer.wire_msg env.stack env'.stack]
  | checkServerStatus => simp only [Pc.run, checkServerStatusStep, hok]
  | sendMsg job =>
      have hwire := fun contents : Job => contents.wire_msg env.stack env'.stack
      simp only [Pc.run, sendMsgStep, hok, hwire]
  | _ => rfl

end Handlers

/-! ## Runs of messages that cover what is read -/

section Runs

variable {N : Nat} [NeZero N]

/-- The message covers what the handler that gets it reads of it. -/
def Sys.Covers (s : Sys N) (t : Nat) (m : Msg) : Prop :=
  match s.threads[t]? with
  | some .attendClient => m.CoversClient
  | some .attendExecServ => m.CoversExecServ
  | _ => True

instance (s : Sys N) (t : Nat) (m : Msg) : Decidable (s.Covers t m) := by
  unfold Sys.Covers
  split <;> infer_instance

/-- Two actions that differ in leftovers only: behind a message received, and in
a local message that is still to be set. -/
def Sys.SameAction (s : Sys N) : Action → Action → Prop
  | .receive t m blank, .receive t' m' blank' =>
      t = t' ∧ blank = blank' ∧ m.Same m' ∧ s.Covers t m
  | .run t env, .run t' env' => t = t' ∧ env.Same env'
  | a, a' => a = a'

/-- Two runs from one state that differ in leftovers only. -/
inductive SameRun : Sys N → List Action → List Action → Prop
  | nil {s : Sys N} : SameRun s [] []
  | cons {s : Sys N} {a a' : Action} {acts acts' : List Action} (h : s.SameAction a a')
      (hrest : ∀ s', s.step a = some s' → SameRun s' acts acts') :
      SameRun s (a :: acts) (a' :: acts')

omit [NeZero N] in
theorem Sys.SameAction.cases {s : Sys N} {a a' : Action} (h : s.SameAction a a') :
    a = a' ∨
      (∃ t m m' blank, a = .receive t m blank ∧ a' = .receive t m' blank ∧ m.Same m' ∧
        s.Covers t m) ∨
      ∃ t env env', a = .run t env ∧ a' = .run t env' ∧ env.Same env' := by
  cases a with
  | receive t m blank =>
      cases a' with
      | receive t' m' blank' =>
          obtain ⟨rfl, rfl, hsame, hcovers⟩ := h
          exact .inr (.inl ⟨t, m, m', blank, rfl, rfl, hsame, hcovers⟩)
      | _ => cases h
  | run t env =>
      cases a' with
      | run t' env' =>
          obtain ⟨rfl, hsame⟩ := h
          exact .inr (.inr ⟨t, env, env', rfl, rfl, hsame⟩)
      | _ => cases h
  | _ => exact .inl (by cases a' <;> exact h)

theorem step_congr {s : Sys N} {a a' : Action} (h : s.SameAction a a') :
    s.step a = s.step a' := by
  rcases h.cases with rfl | ⟨t, m, m', blank, rfl, rfl, hsame, hcovers⟩ |
    ⟨t, env, env', rfl, rfl, hsame⟩
  · rfl
  · have hreceive : s.receive t m blank = s.receive t m' blank := by
      unfold Sys.receive
      split
      · next ht =>
          simp only [Sys.Covers, ht] at hcovers
          rw [receiveClient_congr hsame hcovers]
      · next ht =>
          simp only [Sys.Covers, ht] at hcovers
          rw [receiveExecServ_congr hsame hcovers]
      · rfl
    unfold Sys.step
    dsimp only
    rw [hreceive]
  · have hrun : s.run t env = s.run t env' := by
      unfold Sys.run
      simp only [Pc.run_congr hsame, hsame.2.1]
    unfold Sys.step
    dsimp only
    rw [hrun]

/-- Runs that differ in leftovers only go the same way. -/
theorem run_congr {s : Sys N} {acts acts' : List Action} (h : SameRun s acts acts') :
    checkedRun Sys.step anyStep s acts = checkedRun Sys.step anyStep s acts' := by
  induction h with
  | nil => rfl
  | @cons s a a' acts acts' ha hrest ih =>
      rw [checkedRun, checkedRun, if_pos (show anyStep s a from trivial),
        if_pos (show anyStep s a' from trivial), ← step_congr ha]
      cases hs : s.step a with
      | none => rfl
      | some s' => exact ih s' hs

end Runs

/-! ## Messages that do not cover it -/

namespace Msg

variable {m : Msg} {n : Nat} {f : Field n}

/-- The message with one byte replaced. -/
def poke (m : Msg) (i : Nat) (b : UInt8) : Msg := ⟨m.bytes.set i b, by rw [List.length_set, m.size]⟩

theorem same_poke (hm : m.Sized) {i : Nat} (hi : (getSize8 m).toNat ≤ i) (b : UInt8) :
    m.Same (m.poke i b) :=
  ⟨hm, (List.take_set_of_le hi).symm⟩

theorem get_poke {j : Nat} (b : UInt8) : (m.poke (f.off + j) b).get f = (m.get f).set j b := by
  rw [get, poke, slice, List.drop_set, if_neg (by omega), Nat.add_sub_cancel_left, List.take_set]
  rfl

/-- A field that is not covered can have another last byte. -/
theorem exists_get_ne (hm : m.Sized) (hn : 0 < n) (hf : ¬ m.Covers f) :
    ∃ m', m.Same m' ∧ m.get f ≠ m'.get f := by
  have hlt : (getSize8 m).toNat < f.off + n := Nat.lt_of_not_le hf
  have hj : n - 1 < (m.get f).length := by rw [length_get]; omega
  refine ⟨m.poke (f.off + (n - 1)) ((m.get f)[n - 1] + 1), same_poke hm (by omega) _, ?_⟩
  rw [get_poke]
  intro h
  have hget := congrArg (fun l => l[n - 1]?) h
  rw [List.getElem?_set_self hj, List.getElem?_eq_getElem hj] at hget
  injection hget with hget
  revert hget
  generalize (m.get f)[n - 1] = b
  intro hget
  have := congrArg UInt8.toNat hget
  rw [UInt8.toNat_add] at this
  have hone : (1 : UInt8).toNat = 1 := rfl
  have hb := b.toNat_lt
  omega

/-- Some byte of a covered string is covered, and everything before it. -/
theorem covers_of_coversStr {k : Nat} {g : Field k} (hf : m.CoversStr f)
    (hg : g.off + k ≤ f.off) : m.Covers g := by
  rcases hf with hf | hnul
  · exact Nat.le_trans hg (Nat.le_trans (Nat.le_add_right _ _) hf)
  · have hpos : 0 < (getSize8 m).toNat - f.off := by
      rcases Nat.eq_zero_or_pos ((getSize8 m).toNat - f.off) with h | h
      · rw [h] at hnul
        cases hnul
      · exact h
    exact Nat.le_trans hg (by omega)

/-- A string that is not covered can be read as another one. -/
theorem exists_strncpy_ne (hm : m.Sized) (hn : 0 < n) (hf : ¬ m.CoversStr f) :
    ∃ m', m.Same m' ∧ strncpy n (m.get f) ≠ strncpy n (m'.get f) := by
  have hcovers : ¬ m.Covers f := fun h => hf (.inl h)
  have hlt : (getSize8 m).toNat < f.off + n := Nat.lt_of_not_le hcovers
  obtain ⟨j, hj⟩ : ∃ j, (getSize8 m).toNat - f.off = j := ⟨_, rfl⟩
  have hjn : j < n := by omega
  have hnul : 0 ∉ (m.get f).take j := fun h => hf (.inr (hj ▸ h))
  have hlen : j < (m.get f).length := by rw [length_get]; exact hjn
  obtain ⟨b, hb⟩ : ∃ b, b ≠ (m.get f)[j] := ⟨(m.get f)[j] + 1, fun h => by
    have := congrArg UInt8.toNat h
    rw [UInt8.toNat_add] at this
    have hone : (1 : UInt8).toNat = 1 := rfl
    have hlt := (m.get f)[j].toNat_lt
    omega⟩
  refine ⟨m.poke (f.off + j) b, same_poke hm (by omega) _, ?_⟩
  rw [get_poke]
  intro h
  have hget := congrArg (fun l => l[j]?) h
  have hnul' : 0 ∉ ((m.get f).set j b).take j := by
    rw [List.take_set_of_le (Nat.le_refl j)]
    exact hnul
  rw [getElem?_strncpy (m.length_get f) hjn hnul,
    getElem?_strncpy (by rw [List.length_set, m.length_get f]) hjn hnul',
    List.getElem?_set_self hlen, List.getElem?_eq_getElem hlen] at hget
  injection hget with hget
  exact hb hget.symm

end Msg

theorem load16_inj {bs bs' : List UInt8} (hlen : bs.length = 2) (hlen' : bs'.length = 2)
    (h : load16 bs = load16 bs') : bs = bs' := by
  rw [← store16_load16 hlen, ← store16_load16 hlen', h]

theorem ntohs_inj {v w : UInt16} (h : ntohs v = ntohs w) : v = w := by
  rw [← ntohs_htons v, ← ntohs_htons w]
  exact congrArg ntohs h

theorem get8_inj {m m' : Msg} {f : Field 1} (h : m.get8 f = m'.get8 f) : m.get f = m'.get f := by
  obtain ⟨b, hb⟩ := List.length_eq_one_iff.mp (m.length_get f)
  obtain ⟨b', hb'⟩ := List.length_eq_one_iff.mp (m'.length_get f)
  rw [Msg.get8, Msg.get8, hb, hb'] at h
  rw [hb, hb']
  exact congrArg (fun b => [b]) h

theorem get16_inj {m m' : Msg} {f : Field 2} (h : ntohs (m.get16 f) = ntohs (m'.get16 f)) :
    m.get f = m'.get f :=
  load16_inj (m.length_get f) (m'.length_get f) (ntohs_inj h)

section Handlers

variable {N : Nat} {m : Msg}

/-- A message that does not cover what `attendClient` reads is handled as its
leftovers say. -/
theorem exists_receiveClient_ne (hm : m.Sized) (hc : ¬ m.CoversClient) (heap : Heap)
    (blank : Job) : ∃ m', m.Same m' ∧
      (receiveClient heap m blank : Option Job × Pc N) ≠ receiveClient heap m' blank := by
  by_cases hno : getType m = MsgType.subNoInter.toByte
  · have hstr : ¬ m.CoversStr Field.execWorkingDir := by
      intro hstr
      have hfile : m.Covers Field.execFile := Msg.covers_of_coversStr hstr (by decide)
      refine hc ⟨fun _ => ⟨.inl hfile, hstr⟩, ?_, ?_, ?_⟩ <;> rw [hno] <;>
        exact fun h => absurd h (by decide)
    obtain ⟨m', hsame, hne⟩ := Msg.exists_strncpy_ne hm (by decide) hstr
    refine ⟨m', hsame, fun h => hne ?_⟩
    rw [submitNoInter_taken hno, submitNoInter_taken (hsame.type.symm.trans hno)] at h
    injection h with h
    injection h with h
    exact congrArg Job.workingDir h
  by_cases hinter : getType m = MsgType.subInteractive.toByte
  · have hstr : ¬ m.CoversStr Field.addrWorkingDir := by
      intro hstr
      have hport : m.Covers Field.addrPort := Msg.covers_of_coversStr hstr (by decide)
      have haddr : m.Covers Field.addrIpaddr := Msg.covers_of_coversStr hstr (by decide)
      have hfile : m.Covers Field.addrExecFile := Msg.covers_of_coversStr hstr (by decide)
      refine hc ⟨?_, fun _ => ⟨hport, haddr, .inl hfile, hstr⟩, ?_, ?_⟩ <;> rw [hinter] <;>
        exact fun h => absurd h (by decide)
    obtain ⟨m', hsame, hne⟩ := Msg.exists_strncpy_ne hm (by decide) hstr
    refine ⟨m', hsame, fun h => hne ?_⟩
    rw [submitInter_taken hinter, submitInter_taken (hsame.type.symm.trans hinter)] at h
    injection h with h
    injection h with h
    exact congrArg Job.workingDir h
  by_cases hqueue : getType m = MsgType.questate.toByte
  · have hid : ¬ m.Covers Field.queueid := by
      intro hid
      refine hc ⟨?_, ?_, ?_, fun _ => hid⟩ <;> rw [hqueue] <;>
        exact fun h => absurd h (by decide)
    obtain ⟨m', hsame, hne⟩ := Msg.exists_get_ne hm (by decide) hid
    refine ⟨m', hsame, fun h => hne (get8_inj ?_)⟩
    rw [queueState_taken hqueue, queueState_taken (hsame.type.symm.trans hqueue)] at h
    injection h with _ h
    injection h
  have hid : ¬ m.Covers Field.jobid := fun hid =>
    hc ⟨fun h => absurd h hno, fun h => absurd h hinter, fun _ => hid, fun h => absurd h hqueue⟩
  have hjob : getType m = MsgType.jobstate.toByte ∨ getType m = MsgType.unsub.toByte := by
    by_contra hnot
    exact hc ⟨fun h => absurd h hno, fun h => absurd h hinter, fun h => absurd h hnot,
      fun h => absurd h hqueue⟩
  obtain ⟨m', hsame, hne⟩ := Msg.exists_get_ne hm (by decide) hid
  refine ⟨m', hsame, fun h => hne (get16_inj ?_)⟩
  rcases hjob with hstate | hunsub
  · rw [jobState_taken hstate, jobState_taken (hsame.type.symm.trans hstate)] at h
    injection h with _ h
    injection h
  · rw [unsubmit_taken hunsub, unsubmit_taken (hsame.type.symm.trans hunsub)] at h
    injection h with _ h
    injection h

theorem exists_receiveExecServ_ne (hm : m.Sized) (hc : ¬ m.CoversExecServ) :
    ∃ m', m.Same m' ∧ (receiveExecServ m : Pc N) ≠ receiveExecServ m' := by
  have hlt : ¬ m.Covers Field.jobStateExitValue := by
    intro hcovers
    refine hc fun _ => ⟨?_, ?_, hcovers⟩
    · exact Nat.le_trans (by decide) hcovers
    · exact Nat.le_trans (by decide) hcovers
  have htype : getType m = MsgType.jobRun.toByte ∨ getType m = MsgType.jobDone.toByte ∨
      getType m = MsgType.jobSig.toByte := by
    by_contra hnot
    exact hc fun h => absurd h hnot
  obtain ⟨m', hsame, hne⟩ := Msg.exists_get_ne hm Nat.one_pos hlt
  refine ⟨m', hsame, fun h => hne (get8_inj ?_)⟩
  have hreq : getType m ≠ MsgType.jobReq.toByte := by
    rcases htype with htype | htype | htype <;> rw [htype] <;> decide
  unfold receiveExecServ at h
  dsimp only at h
  rw [← hsame.type, if_neg hreq, if_neg hreq, if_pos htype, if_pos htype] at h
  injection h

end Handlers

/-- Whatever the buffer held before, the message received is in front of it. -/
theorem recvMsg_same {m : Msg} {sched : List IoResult} {rest : List UInt8} (hm : m.Sized)
    (hp : Pieces sched) (hlen : m.wire.length ≤ sched.length) (buf buf' : Msg) :
    ∃ pkg pkg', recvMsg sched (m.wire ++ rest) buf = .ret 1 pkg rest ∧
      recvMsg sched (m.wire ++ rest) buf' = .ret 1 pkg' rest ∧ pkg.Same pkg' := by
  refine ⟨_, _, recvMsg_complete hm hp hlen, recvMsg_complete hm hp hlen, ?_⟩
  have hsize := getSize8_wire_over hm buf
  refine ⟨?_, ?_⟩
  · rw [Msg.Sized, hsize]
    exact hm
  · rw [hsize, Msg.take_wire_over hm, Msg.take_wire_over hm]

/-- A message that covers what its handler reads means its own bytes. Buffers
that differ in what was there before a message was received have that message in
front of them; and runs that differ in what stands behind such messages, and in
what local messages hold before they are set, are one run: the same queues and
history, and the same bytes sent. A message that does not cover what its handler
reads is handled in another way over other leftovers. -/
theorem message_means_its_bytes (N : Nat) [NeZero N] :
    (∀ (m : Msg) (sched : List IoResult) (rest : List UInt8), m.Sized → Pieces sched →
      m.wire.length ≤ sched.length → ∀ buf buf' : Msg, ∃ pkg pkg',
        recvMsg sched (m.wire ++ rest) buf = .ret 1 pkg rest ∧
        recvMsg sched (m.wire ++ rest) buf' = .ret 1 pkg' rest ∧ pkg.Same pkg') ∧
    (∀ (s : Sys N) (acts acts' : List Action), SameRun s acts acts' →
      checkedRun Sys.step anyStep s acts = checkedRun Sys.step anyStep s acts') ∧
    (∀ m : Msg, m.Sized → ¬ m.CoversClient → ∀ (heap : Heap) (blank : Job), ∃ m', m.Same m' ∧
      (receiveClient heap m blank : Option Job × Pc N) ≠ receiveClient heap m' blank) ∧
    ∀ m : Msg, m.Sized → ¬ m.CoversExecServ → ∃ m', m.Same m' ∧
      (receiveExecServ m : Pc N) ≠ receiveExecServ m' :=
  ⟨fun _ _ _ hm hp hlen => recvMsg_same hm hp hlen, fun _ _ _ h => run_congr h,
    fun _ hm hc heap blank => exists_receiveClient_ne hm hc heap blank,
    fun _ hm hc => exists_receiveExecServ_ne hm hc⟩

/-- A connection that asks to cancel a job, over a buffer full of `b`. -/
def cancelOver (b : UInt8) : List Action :=
  [.receive 0 (setUnsubmitClient (Msg.fill b) 0) Action.blankJob, .go 0, .go 0]

theorem message_means_its_bytes_cancel :
    checkedRun Sys.step anyStep { Sys.init numQueueMax with threads := [.attendClient] }
        (cancelOver 0) =
      checkedRun Sys.step anyStep { Sys.init numQueueMax with threads := [.attendClient] }
        (cancelOver 255) := by
  refine (message_means_its_bytes numQueueMax).2.1 _ _ _ ?_
  refine .cons ⟨rfl, rfl, by decide +kernel, by decide +kernel⟩ fun _ _ => ?_
  exact .cons ⟨rfl, rfl, rfl, rfl⟩ fun _ _ => .cons ⟨rfl, rfl, rfl, rfl⟩ fun _ _ => .nil

/-- A client submits a job and then sends a bare header that says `JOBSTATE`,
into a buffer full of `b`. -/
def bareHeaderOver (b : UInt8) : List Action :=
  [.acceptClient, .submit 0, .go 0, .go 0, .go 0, .go 0,
    .receive 0 ((Msg.fill b).header .jobstate sizeofHeader) Action.blankJob, .go 0, .go 0]

/-- The five bytes are answered with the state of a job, or with `BAD_PARAMS`. -/
theorem short_message_reads_leftovers :
    ((Msg.fill 0).header .jobstate sizeofHeader).Same
      ((Msg.fill 1).header .jobstate sizeofHeader) ∧
    (checkedRun Sys.step anyStep (Sys.init numQueueMax) (bareHeaderOver 0)).map Sys.log ≠
      (checkedRun Sys.step anyStep (Sys.init numQueueMax) (bareHeaderOver 1)).map Sys.log ∧
    (checkedRun Sys.step anyStep (Sys.init numQueueMax) (bareHeaderOver 0)).any
      (fun s => decide (.replied 0 (.jobState ⟨JobState.wait.toByte, 0, 0⟩)
        (setJobState (Msg.fill 0) ⟨JobState.wait.toByte, 0, 0⟩).wire ∈ s.log)) = true ∧
    (checkedRun Sys.step anyStep (Sys.init numQueueMax) (bareHeaderOver 1)).any
      (fun s => decide (.replied 0 .badParams (setBadParams (Msg.fill 0)).wire ∈ s.log)) = true := by
  decide +kernel

end DistQueue
