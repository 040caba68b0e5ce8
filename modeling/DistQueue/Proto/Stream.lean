import DistQueue.Lib.Frames
import DistQueue.Proto.Wire

/-!
# One call at a time

`sendMsg` and `recvMsg` seen from the stream between them, which is what two
processes that wait for each other need: each call of `send` or `recv` is a
step of its own, and the loops go on from where the last one left them.

For `recvMsg` the step is the loop itself with one call left in its schedule.
A stream of messages that setters filled in is then a `Lane` of frames, and the
lemmas say what one call makes of it.
-/

namespace DistQueue

open DistQueue.Lib

/-! ## The calls -/

inductive SendOut
  | ret (code : Int)
  /-- `toSend` is not zero yet. -/
  | blocked (st : SendSt)
  deriving DecidableEq, Repr

/-- The test of the loop of `sendMsg`. -/
def SendSt.test (st : SendSt) : SendOut := if st.toSend = 0 then .ret 1 else .blocked st

/-- One call of `send`, and the test behind it. -/
def sendCall (mem : Int → UInt8) (r : IoResult) (st : SendSt) : List UInt8 × SendOut :=
  match r with
  | .error => ([], .ret (-1))
  | .eintr => ([], st.retreat.test)
  | .moved n =>
      if n = 0 then ([], .ret 0)
      else
        let n := min n st.toSend
        (window mem st.ptr n, (st.advance n).test)

theorem sendLoop_zero {mem : Int → UInt8} {sched : List IoResult} {st : SendSt}
    (h : st.toSend = 0) : sendLoop mem sched st = ([], some 1) := by
  cases sched with
  | nil => rw [sendLoop, if_pos h]
  | cons r sched => rw [sendLoop.eq_def]; exact if_pos h

/-- The loop makes its first call and goes on with what the call leaves. -/
theorem sendLoop_cons {mem : Int → UInt8} {r : IoResult} {sched : List IoResult}
    {st : SendSt} (h : st.toSend ≠ 0) :
    sendLoop mem (r :: sched) st =
      match sendCall mem r st with
      | (bs, .ret code) => (bs, some code)
      | (bs, .blocked st') =>
          (bs ++ (sendLoop mem sched st').1, (sendLoop mem sched st').2) := by
  have htest : ∀ (bs : List UInt8) (st : SendSt),
      (bs ++ (sendLoop mem sched st).1, (sendLoop mem sched st).2) =
        match (bs, st.test) with
        | (bs, .ret code) => (bs, some code)
        | (bs, .blocked st') =>
            (bs ++ (sendLoop mem sched st').1, (sendLoop mem sched st').2) := by
    intro bs st
    unfold SendSt.test
    by_cases hz : st.toSend = 0
    · rw [if_pos hz, sendLoop_zero hz]
      simp
    · rw [if_neg hz]
  rw [sendLoop.eq_def]
  dsimp only
  rw [if_neg h]
  cases r with
  | error => rfl
  | eintr => exact htest [] st.retreat
  | moved n =>
      by_cases hn : n = 0
      · simp [sendCall, hn]
      · simp only [sendCall, if_neg hn]
        exact htest _ _

/-- The calls of one schedule and then those of another. -/
theorem recvLoop_append {later : List IoResult} : ∀ {sched : List IoResult}
    {stream : List UInt8} {st : RecvSt},
    recvLoop (sched ++ later) stream st =
      match recvLoop sched stream st with
      | .blocked st' rest => recvLoop later rest st'
      | out => out := by
  intro sched
  induction sched with
  | nil =>
      intro stream st
      rw [List.nil_append]
      by_cases hz : st.toRecv = 0
      · rw [recvLoop_zero hz, recvLoop_zero hz]
      · rw [recvLoop_nil hz]
  | cons r sched ih =>
      intro stream st
      rw [List.cons_append]
      by_cases hz : st.toRecv = 0
      · rw [recvLoop_zero hz, recvLoop_zero hz]
      · cases r with
        | error => rw [recvLoop_error hz, recvLoop_error hz]
        | eintr =>
            rw [recvLoop_eintr hz, recvLoop_eintr hz]
            exact ih
        | moved n =>
            rw [recvLoop_moved hz rfl, recvLoop_moved hz rfl]
            split
            · rfl
            · cases hstore : st.store
                  (stream.take (min n (min st.toRecv stream.length))) with
              | none => rfl
              | some st' => exact ih

/-! ## The sender's end -/

section Sender

variable {msg : Msg} {around : Int → UInt8} {pend : List UInt8} {st : SendSt}

/-- `sendMsg` has still to put in `pend`. -/
def WritesAt (pend : List UInt8) (msg : Msg) (st : SendSt) : Prop :=
  ∃ off n : Nat, st = ⟨off, n⟩ ∧ n ≠ 0 ∧ off + n ≤ sizeofMsg ∧ pend = slice msg.bytes off n

theorem writesAt_start (c : SetterCall) (scratch : Msg) :
    WritesAt c.wire (c.apply scratch) (.start (c.apply scratch)) := by
  have hsize := SetterCall.size_apply scratch c
  obtain ⟨hlo, hhi, -⟩ := SetterCall.sized_size c
  refine ⟨0, c.size, ?_, ?_, by omega, ?_⟩
  · rw [SendSt.start, hsize]
    rfl
  · exact Nat.pos_iff_ne_zero.mp (Nat.lt_of_lt_of_le (by decide) hlo)
  · rw [← SetterCall.apply_wire scratch c, Msg.wire, hsize, take_eq_slice]

theorem WritesAt.ne_nil (h : WritesAt pend msg st) : pend ≠ [] := by
  obtain ⟨off, n, -, hn, hin, rfl⟩ := h
  have hlen : (slice msg.bytes off n).length = n := length_slice (by rw [msg.size]; exact hin)
  exact List.length_pos_iff.mp (by omega)

/-- What a call of `send` makes of `pend`. -/
inductive Pushed (msg : Msg) (pend : List UInt8) : List UInt8 × SendOut → Prop
  | failed {code : Int} : code = -1 ∨ code = 0 → Pushed msg pend ([], .ret code)
  | more {p pend' : List UInt8} {st : SendSt} : pend = p ++ pend' → WritesAt pend' msg st →
      Pushed msg pend (p, .blocked st)
  | whole : Pushed msg pend (pend, .ret 1)

theorem sendCall_pushed (h : WritesAt pend msg st) {r : IoResult} (hr : r ≠ .eintr) :
    Pushed msg pend (sendCall (msg.mem around) r st) := by
  obtain ⟨off, n, rfl, hn, hin, rfl⟩ := h
  cases r with
  | error => exact .failed (.inl rfl)
  | eintr => exact absurd rfl hr
  | moved k =>
      by_cases hk : k = 0
      · rw [sendCall, if_pos hk]
        exact .failed (.inr rfl)
      · obtain ⟨j, hj⟩ : ∃ j, min k n = j := ⟨_, rfl⟩
        have hjn : j ≤ n := by omega
        have hwindow : window (msg.mem around) off j = slice msg.bytes off j :=
          window_eq_slice (by omega)
        have hadvance : SendSt.advance ⟨off, n⟩ j = ⟨(off + j : Nat), n - j⟩ := by
          simp [SendSt.advance]
        rw [sendCall, if_neg hk]
        simp only [hj, hwindow, hadvance, SendSt.test]
        by_cases hlast : n - j = 0
        · obtain rfl : j = n := by omega
          rw [if_pos hlast]
          exact .whole
        · rw [if_neg hlast]
          have hrest : WritesAt (slice msg.bytes (off + j) (n - j)) msg
              ⟨(off + j : Nat), n - j⟩ :=
            ⟨off + j, n - j, rfl, hlast, by omega, rfl⟩
          refine .more ?_ hrest
          rw [slice_append, Nat.add_sub_cancel' hjn]

end Sender

/-! ## The receiver's end -/

section Receiver

variable {msgs : List SetterCall} {got chan pend : List UInt8} {st : RecvSt}

/-- `recvMsg` has `got` of the first message to come. -/
def ReadsAt (msgs : List SetterCall) (got : List UInt8) (st : RecvSt) : Prop :=
  ∃ buf, st = recvAt buf (msgs.head?.elim 0 SetterCall.size) got

theorem readsAt_start (msgs : List SetterCall) (buf : Msg) : ReadsAt msgs [] (.start buf) :=
  ⟨buf, (recvAt_nil buf _).symm⟩

/-- A message put in behind the others changes nothing for the reader. -/
theorem ReadsAt.append (h : ReadsAt msgs got st) (hlane : Lane SetterCall.wire msgs got chan pend)
    (c : SetterCall) : ReadsAt (msgs ++ [c]) got st := by
  obtain ⟨buf, rfl⟩ := h
  cases msgs with
  | nil =>
      obtain ⟨rfl, -, -⟩ := hlane.of_nil
      exact ⟨buf, by rw [recvAt_nil, recvAt_nil]⟩
  | cons m rest => exact ⟨buf, rfl⟩

/-- What a call of `recv` makes of the stream, `p` being what it takes. -/
inductive Pulled (msgs : List SetterCall) (got chan pend : List UInt8) : RecvOut → Prop
  | failed {code : Int} {buf : Msg} : code = -1 ∨ code = 0 →
      Pulled msgs got chan pend (.ret code buf chan)
  | more {st : RecvSt} {p rest : List UInt8} : chan = p ++ rest →
      Lane SetterCall.wire msgs (got ++ p) rest pend → ReadsAt msgs (got ++ p) st →
      Pulled msgs got chan pend (.blocked st rest)
  | whole {c : SetterCall} {msgs' : List SetterCall} {buf : Msg} {p rest : List UInt8} :
      msgs = c :: msgs' → chan = p ++ rest → got ++ p = c.wire →
      Lane SetterCall.wire msgs' [] rest pend →
      Pulled msgs got chan pend (.ret 1 (buf.over c.wire) rest)

theorem recvLoop_single {st : RecvSt} {stream : List UInt8} :
    recvLoop [] stream st = if st.toRecv = 0 then .ret 1 st.buf stream else .blocked st stream :=
  rfl

theorem recvCall_pulled (hlane : Lane SetterCall.wire msgs got chan pend)
    (h : ReadsAt msgs got st) {r : IoResult} (hr : r ≠ .eintr) :
    Pulled msgs got chan pend (recvLoop [r] chan st) := by
  obtain ⟨buf, rfl⟩ := h
  obtain ⟨sz, hsz⟩ : ∃ sz, msgs.head?.elim 0 SetterCall.size = sz := ⟨_, rfl⟩
  rw [hsz]
  have hwanted : ∀ got, (recvAt buf sz got).toRecv = wanted sz got.length := fun _ => rfl
  -- A header is wanted, or the rest of a message that has not all arrived.
  have hpos : wanted sz got.length ≠ 0 := by
    cases msgs with
    | nil =>
        obtain ⟨rfl, -, -⟩ := hlane.of_nil
        simp [wanted, sizeofHeader]
    | cons c rest =>
        have hcut := hlane.cut c rfl
        rw [SetterCall.length_wire] at hcut
        obtain rfl : c.size = sz := hsz
        unfold wanted
        split <;> omega
  cases r with
  | error =>
      rw [recvLoop_error (by rw [hwanted]; exact hpos)]
      exact .failed (.inl rfl)
  | eintr => exact absurd rfl hr
  | moved n =>
      obtain ⟨k, hk⟩ : ∃ k, min n (min (recvAt buf sz got).toRecv chan.length) = k := ⟨_, rfl⟩
      rw [recvLoop_moved (by rw [hwanted]; exact hpos) hk]
      by_cases hk0 : k = 0
      · rw [if_pos hk0]
        exact .failed (.inr rfl)
      · rw [if_neg hk0]
        rw [hwanted] at hk
        have hchan : (chan.take k).length = k := by rw [List.length_take]; omega
        have hne : chan.take k ≠ [] := List.length_pos_iff.mp (by omega)
        obtain ⟨c, rest, rfl⟩ := hlane.exists_cons (fun hnil => by simp [hnil] at hchan; omega)
        obtain rfl : c.size = sz := hsz
        have hcut := hlane.cut c rfl
        have hsized := SetterCall.sized_apply (Msg.fill 0) c
        have hsize := SetterCall.size_apply (Msg.fill 0) c
        have hsplit : chan = chan.take k ++ chan.drop k := (List.take_append_drop k chan).symm
        rw [hsplit] at hlane
        have hle : (got ++ chan.take k).length ≤ c.wire.length := by
          have := wanted_le hsized got.length
          rw [hsize] at this
          rw [List.length_append, hchan, SetterCall.length_wire]
          rw [SetterCall.length_wire] at hcut
          omega
        have hstore := store_recvAt hsized buf (hlane.prefix_of_le hle) hne (by
          rw [hsize, hchan]; omega)
        rw [hsize] at hstore
        rw [hstore]
        simp only [recvLoop_single, hwanted]
        have hzero := wanted_eq_zero hsized (got ++ chan.take k).length (by
          rw [hsize, ← SetterCall.length_wire]; exact hle)
        rw [hsize] at hzero
        by_cases hlast : (got ++ chan.take k).length = c.size
        · obtain ⟨hframe, hrest⟩ := hlane.pop SetterCall.wire_ne_nil
            (hlast.trans (SetterCall.length_wire c).symm)
          rw [if_pos (hzero.mpr hlast), hframe]
          exact .whole rfl hsplit hframe hrest
        · rw [if_neg (hzero.not.mpr hlast)]
          rw [← SetterCall.length_wire] at hlast
          exact .more hsplit (hlane.pull (Nat.lt_of_le_of_ne hle hlast)) ⟨buf, rfl⟩

end Receiver

end DistQueue
