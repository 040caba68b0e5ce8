import DistQueue.Proto.Setters

/-!
# `sendMsg` and `recvMsg`

Both functions are loops around one system call. What the calls answer is not
theirs to decide, so it is an argument: a schedule, one entry for each call.
A schedule that runs out leaves the function inside the call, which is where a
blocked thread is.

The loops keep a pointer and a remaining count of type `size_t` and update
both from whatever the call returned, `-1` included, so the pointer is an
integer that may leave the message and the count wraps at `sizeT`. Memory
around the message is a parameter of the sender; a receiver that stores
outside of its message ends the run as `overflow`.
-/

namespace DistQueue

open DistQueue.Lib

/-- What one call of `send` or `recv` returns: a count (0 for a closed
socket), or -1 with `errno` being `EINTR` or something else. -/
inductive IoResult
  | moved (n : Nat)
  | eintr
  | error
  deriving DecidableEq, Repr

/-- `size_t` has 64 bits. -/
def sizeT : Nat := 2 ^ 64

/-! ## Sending -/

structure SendSt where
  ptr : Int
  toSend : Nat
  deriving DecidableEq, Repr

def SendSt.start (msg : Msg) : SendSt := ⟨0, (getSize8 msg).toNat⟩

/-- After a call that moved `n` bytes. -/
def SendSt.advance (st : SendSt) (n : Nat) : SendSt := ⟨st.ptr + n, st.toSend - n⟩

/-- After a call that returned -1: `toSend -= sent; ptr += sent`. -/
def SendSt.retreat (st : SendSt) : SendSt := ⟨st.ptr - 1, (st.toSend + 1) % sizeT⟩

/-- The message as memory, `around` being what lies before and after it. -/
def Msg.mem (m : Msg) (around : Int → UInt8) (i : Int) : UInt8 :=
  if 0 ≤ i then m.bytes.getD i.toNat (around i) else around i

/-- The bytes `[ptr, ptr + n)` of memory. -/
def window (mem : Int → UInt8) (ptr : Int) (n : Nat) : List UInt8 :=
  (List.range n).map fun (i : Nat) => mem (ptr + i)

/-- The loop of `sendMsg`: what reaches the socket, and the return value
(`none` while still inside `send`). -/
def sendLoop (mem : Int → UInt8) : List IoResult → SendSt → List UInt8 × Option Int
  | [], st => ([], if st.toSend = 0 then some 1 else none)
  | r :: sched, st =>
      if st.toSend = 0 then ([], some 1)
      else
        match r with
        | .error => ([], some (-1))
        | .eintr => sendLoop mem sched st.retreat
        | .moved n =>
            if n = 0 then ([], some 0)
            else
              let n := min n st.toSend
              let tail := sendLoop mem sched (st.advance n)
              (window mem st.ptr n ++ tail.1, tail.2)

def sendMsg (sched : List IoResult) (msg : Msg) (around : Int → UInt8) :
    List UInt8 × Option Int :=
  sendLoop (msg.mem around) sched (.start msg)

/-! ## Receiving -/

structure RecvSt where
  buf : Msg
  ptr : Int
  toRecv : Nat
  headerRecvd : Bool
  deriving DecidableEq

def RecvSt.start (buf : Msg) : RecvSt := ⟨buf, 0, sizeofHeader, false⟩

/-- The test at the end of an iteration: with the header complete, go on with
the payload it announces. -/
def RecvSt.switch (st : RecvSt) : RecvSt :=
  if st.toRecv = 0 ∧ st.headerRecvd = false then
    { st with
      headerRecvd := true
      ptr := sizeofHeader
      toRecv := ((getSize8 st.buf).toNat + sizeT - sizeofHeader) % sizeT }
  else st

/-- `recv` stored `chunk` at `ptr`; `none` when it does not fit in `*msg`. -/
def RecvSt.store (st : RecvSt) (chunk : List UInt8) : Option RecvSt :=
  if h : 0 ≤ st.ptr ∧ st.ptr.toNat + chunk.length ≤ sizeofMsg then
    some (RecvSt.switch
      { st with
        buf := st.buf.put ⟨st.ptr.toNat, h.2⟩ chunk rfl
        toRecv := st.toRecv - chunk.length
        ptr := st.ptr + chunk.length })
  else none

/-- After a call that returned -1. -/
def RecvSt.retreat (st : RecvSt) : RecvSt :=
  RecvSt.switch { st with ptr := st.ptr - 1, toRecv := (st.toRecv + 1) % sizeT }

inductive RecvOut
  /-- Returned, with the message and the rest of the stream. -/
  | ret (code : Int) (buf : Msg) (rest : List UInt8)
  /-- Inside `recv` when the schedule ran out. -/
  | blocked (st : RecvSt) (rest : List UInt8)
  /-- A store outside of `*msg`. -/
  | overflow
  deriving DecidableEq

/-- The loop of `recvMsg` on the bytes the peer will ever send. A call takes
at most what it asked for and what there is; with nothing left it returns 0. -/
def recvLoop : List IoResult → List UInt8 → RecvSt → RecvOut
  | [], stream, st => if st.toRecv = 0 then .ret 1 st.buf stream else .blocked st stream
  | r :: sched, stream, st =>
      if st.toRecv = 0 then .ret 1 st.buf stream
      else
        match r with
        | .error => .ret (-1) st.buf stream
        | .eintr => recvLoop sched stream st.retreat
        | .moved n =>
            let n := min n (min st.toRecv stream.length)
            if n = 0 then .ret 0 st.buf stream
            else
              match st.store (stream.take n) with
              | none => .overflow
              | some st' => recvLoop sched (stream.drop n) st'

def recvMsg (sched : List IoResult) (stream : List UInt8) (buf : Msg) : RecvOut :=
  recvLoop sched stream (.start buf)

/-! ## Schedules without failures -/

/-- Every call moves something and none is interrupted: the reliable stream,
cut into arbitrary non-empty pieces. -/
def Pieces (sched : List IoResult) : Prop := ∀ r ∈ sched, ∃ n, r = .moved (n + 1)

/-- The bytes a message occupies on the wire. -/
def Msg.wire (m : Msg) : List UInt8 := m.bytes.take (getSize8 m).toNat

/-- The size the header announces is one a message can have. -/
def Msg.Sized (m : Msg) : Prop :=
  sizeofHeader ≤ (getSize8 m).toNat ∧ (getSize8 m).toNat ≤ sizeofMsg

instance (m : Msg) : Decidable m.Sized := inferInstanceAs (Decidable (_ ∧ _))

theorem Msg.length_wire {m : Msg} (h : m.Sized) : m.wire.length = (getSize8 m).toNat := by
  rw [Msg.wire, List.length_take, m.size, Nat.min_eq_left h.2]

theorem window_eq_slice {m : Msg} {around : Int → UInt8} {off n : Nat}
    (h : off + n ≤ sizeofMsg) : window (m.mem around) off n = slice m.bytes off n := by
  have hlen : (slice m.bytes off n).length = n := length_slice (by rw [m.size]; exact h)
  refine List.ext_getElem ?_ ?_
  · rw [hlen]; simp [window]
  · intro i hi _
    have hin : i < n := by simpa [window] using hi
    have hb : off + i < m.bytes.length := by rw [m.size]; omega
    simp only [window, List.getElem_map, List.getElem_range, Msg.mem]
    rw [if_pos (by omega), show ((off : Int) + (i : Int)).toNat = off + i by omega,
      List.getD_eq_getElem?_getD, List.getElem?_eq_getElem hb]
    simp [slice]

/-- With non-empty pieces and room in the schedule for every byte, the loop
puts out exactly what it was asked for. -/
theorem sendLoop_pieces {m : Msg} {around : Int → UInt8} : ∀ {sched : List IoResult}
    {off n : Nat}, Pieces sched → off + n ≤ sizeofMsg → n ≤ sched.length →
    sendLoop (m.mem around) sched ⟨off, n⟩ = (slice m.bytes off n, some 1) := by
  intro sched
  induction sched with
  | nil =>
      intro off n _ _ hlen
      have hn : n = 0 := by simpa using hlen
      subst hn
      rfl
  | cons r sched ih =>
      intro off n hp hin hlen
      rw [sendLoop.eq_def]
      dsimp only
      split
      · next hz =>
          have hn : n = 0 := hz
          subst hn
          rfl
      · next hz =>
          obtain ⟨k, rfl⟩ := hp r (by simp)
          have hn : n ≠ 0 := hz
          have hrest : Pieces sched := fun r hr => hp r (by simp [hr])
          have hmin : min (k + 1) n ≤ n := Nat.min_le_right _ _
          have hmin' : 0 < min (k + 1) n := by omega
          have hsched : n ≤ sched.length + 1 := hlen
          have hadv : SendSt.advance ⟨off, n⟩ (min (k + 1) n) =
              ⟨(off + min (k + 1) n : Nat), n - min (k + 1) n⟩ := by
            simp [SendSt.advance]
          have htail := @ih (off + min (k + 1) n) (n - min (k + 1) n) hrest
            (by omega) (by omega)
          simp only [hadv, htail]
          rw [window_eq_slice (by omega), slice_append, Nat.add_sub_cancel' hmin]
          exact if_neg (Nat.succ_ne_zero k)

/-- `sendMsg` on a reliable stream: the wire bytes, and 1. -/
theorem sendMsg_pieces {m : Msg} {around : Int → UInt8} {sched : List IoResult}
    (hp : Pieces sched) (hm : m.Sized) (hlen : m.wire.length ≤ sched.length) :
    sendMsg sched m around = (m.wire, some 1) := by
  rw [Msg.length_wire hm] at hlen
  rw [Msg.wire, take_eq_slice]
  exact @sendLoop_pieces m around sched 0 _ hp (by have := hm.2; omega) hlen

/-! ## The receiver, from the bytes it has seen

`recvAt` gives the loop's state from the bytes consumed so far, without
running the loop: the buffer is those bytes over its old contents, and what is
still wanted follows from the header once it is there. -/

/-- `bs` over the start of `m`. -/
def Msg.over (m : Msg) (bs : List UInt8) : Msg :=
  ⟨(bs ++ m.bytes.drop bs.length).take sizeofMsg, by
    rw [List.length_take, List.length_append, List.length_drop, m.size]; omega⟩

theorem Msg.bytes_over (m : Msg) {bs : List UInt8} (h : bs.length ≤ sizeofMsg) :
    (m.over bs).bytes = bs ++ m.bytes.drop bs.length :=
  List.take_of_length_le (by
    rw [List.length_append, List.length_drop, m.size]; omega)

theorem Msg.over_nil (m : Msg) : m.over [] = m :=
  Msg.ext (by rw [Msg.bytes_over m (by simp)]; simp)

theorem Msg.take_over (m : Msg) {bs : List UInt8} (h : bs.length ≤ sizeofMsg) :
    (m.over bs).bytes.take bs.length = bs := by
  rw [Msg.bytes_over m h]; simp

/-- Writing a chunk behind the bytes already there. -/
theorem Msg.put_over (m : Msg) {bs chunk : List UInt8} {f : Field chunk.length}
    (hoff : f.off = bs.length) : (m.over bs).put f chunk rfl = m.over (bs ++ chunk) := by
  have hin := f.inside
  have hb : bs.length ≤ sizeofMsg := by omega
  refine Msg.ext ?_
  rw [Msg.bytes_over m (by rw [List.length_append]; omega)]
  simp only [Msg.put, splice]
  rw [Msg.bytes_over m hb, hoff, List.take_left, List.drop_append,
    List.drop_of_length_le (by omega), List.nil_append, List.drop_drop,
    List.length_append]
  congr 2
  omega

/-- What is still wanted after `len` bytes of a message of `sz`: the rest of
the header first, then the rest of the message. -/
def wanted (sz len : Nat) : Nat :=
  if len < sizeofHeader then sizeofHeader - len else sz - len

def recvAt (buf : Msg) (sz : Nat) (bs : List UInt8) : RecvSt :=
  ⟨buf.over bs, bs.length, wanted sz bs.length, decide (sizeofHeader ≤ bs.length)⟩

theorem recvAt_nil (buf : Msg) (sz : Nat) : recvAt buf sz [] = .start buf := by
  simp [recvAt, RecvSt.start, Msg.over_nil, wanted, sizeofHeader]

/-- The size is announced by the first two bytes. -/
theorem getSize8_over {m buf : Msg} {bs : List UInt8} (hpre : bs <+: m.wire)
    (hlen : 2 ≤ bs.length) (hm : m.Sized) : getSize8 (buf.over bs) = getSize8 m := by
  have hle := hpre.length_le
  rw [Msg.length_wire hm] at hle
  have hin := hm.2
  have htake : (buf.over bs).bytes.take bs.length = m.bytes.take bs.length :=
    calc (buf.over bs).bytes.take bs.length
      _ = bs := Msg.take_over buf (by omega)
      _ = m.wire.take bs.length := List.prefix_iff_eq_take.mp hpre
      _ = m.bytes.take bs.length := by rw [Msg.wire, List.take_take, Nat.min_eq_left hle]
  have hsz : (buf.over bs).get .sz8 = m.get .sz8 := Msg.get_congr htake hlen
  rw [getSize8, getSize8, Msg.get16, Msg.get16, hsz]

/-! Of a whole message, a block that starts with its bytes has the size and the
bytes up to it. -/

theorem getSize8_wire_over {m : Msg} (hm : m.Sized) (buf : Msg) :
    getSize8 (buf.over m.wire) = getSize8 m := by
  refine getSize8_over (List.prefix_refl _) ?_ hm
  rw [Msg.length_wire hm]
  exact Nat.le_trans (by decide) hm.1

theorem Msg.take_wire_over {m : Msg} (hm : m.Sized) (buf : Msg) :
    (buf.over m.wire).bytes.take (getSize8 m).toNat = m.wire := by
  have hlen := Msg.length_wire hm
  rw [← hlen]
  refine Msg.take_over buf ?_
  rw [hlen]
  exact hm.2

/-- One stored chunk takes the state of the bytes before it to the state of
the bytes with it. -/
theorem RecvSt.store_at {sz : Nat} (buf : Msg) {bs chunk : List UInt8}
    (hlo : sizeofHeader ≤ sz) (hin : bs.length + chunk.length ≤ sizeofMsg)
    (hne : chunk ≠ []) (hw : chunk.length ≤ wanted sz bs.length)
    (hsize : bs.length + chunk.length = sizeofHeader →
      ((getSize8 (buf.over (bs ++ chunk))).toNat + sizeT - sizeofHeader) % sizeT =
        sz - sizeofHeader) :
    (recvAt buf sz bs).store chunk = some (recvAt buf sz (bs ++ chunk)) := by
  have hpos : 0 < chunk.length := List.length_pos_iff.mpr hne
  have hfit : 0 ≤ (recvAt buf sz bs).ptr ∧
      (recvAt buf sz bs).ptr.toNat + chunk.length ≤ sizeofMsg := by
    simp only [recvAt]; omega
  rw [RecvSt.store, dif_pos hfit]
  congr 1
  simp only [recvAt]
  rw [Msg.put_over buf (by simp)]
  by_cases hswitch : bs.length + chunk.length = sizeofHeader
  · -- The chunk completes the header: the switch reads the size just stored.
    have hnot : ¬ sizeofHeader ≤ bs.length := by omega
    have hzero : wanted sz bs.length - chunk.length = 0 := by
      rw [wanted, if_pos (by omega)]; omega
    rw [RecvSt.switch, if_pos ⟨hzero, decide_eq_false hnot⟩]
    simp only [hsize hswitch, List.length_append, hswitch, Nat.le_refl, decide_true]
    rw [wanted, if_neg (by omega)]
  · have hstay : ¬ (wanted sz bs.length - chunk.length = 0 ∧
        decide (sizeofHeader ≤ bs.length) = false) := by
      rintro ⟨hz, hd⟩
      have hnot := of_decide_eq_false hd
      rw [wanted, if_pos (by omega)] at hz hw
      omega
    rw [RecvSt.switch, if_neg hstay]
    have hwanted : wanted sz bs.length - chunk.length =
        wanted sz (bs.length + chunk.length) := by
      unfold wanted at hw ⊢
      split at hw
      · next hlt => rw [if_pos hlt]; split <;> omega
      · next hge => rw [if_neg hge, if_neg (by omega)]; omega
    have hdec : decide (sizeofHeader ≤ bs.length) =
        decide (sizeofHeader ≤ bs.length + chunk.length) := by
      unfold wanted at hw
      split at hw
      · next hlt =>
          rw [decide_eq_false (by omega), decide_eq_false (by omega)]
      · next hge => rw [decide_eq_true (by omega), decide_eq_true (by omega)]
    simp only [hwanted, hdec, List.length_append, Nat.cast_add]

/-- The same inside the bytes of a message. -/
theorem store_recvAt {m : Msg} (hm : m.Sized) (buf : Msg) {bs chunk : List UInt8}
    (hpre : bs ++ chunk <+: m.wire) (hne : chunk ≠ [])
    (hw : chunk.length ≤ wanted (getSize8 m).toNat bs.length) :
    (recvAt buf (getSize8 m).toNat bs).store chunk =
      some (recvAt buf (getSize8 m).toNat (bs ++ chunk)) := by
  have hle := hpre.length_le
  rw [Msg.length_wire hm, List.length_append] at hle
  have hlo := hm.1
  have hin := hm.2
  refine RecvSt.store_at buf hlo (by omega) hne hw fun hswitch => ?_
  have hsize : getSize8 (buf.over (bs ++ chunk)) = getSize8 m :=
    getSize8_over hpre (by rw [List.length_append, hswitch]; decide) hm
  rw [hsize, show (getSize8 m).toNat + sizeT - sizeofHeader =
    (getSize8 m).toNat - sizeofHeader + sizeT by omega, Nat.add_mod_right,
    Nat.mod_eq_of_lt (by have := (getSize8 m).toNat_lt; unfold sizeT; omega)]

theorem wanted_eq_zero {m : Msg} (hm : m.Sized) (len : Nat)
    (hlen : len ≤ (getSize8 m).toNat) :
    wanted (getSize8 m).toNat len = 0 ↔ len = (getSize8 m).toNat := by
  have hlo := hm.1
  unfold wanted
  split <;> omega

theorem wanted_le {m : Msg} (hm : m.Sized) (len : Nat) :
    wanted (getSize8 m).toNat len ≤ (getSize8 m).toNat - len := by
  have hlo := hm.1
  unfold wanted
  split <;> omega

theorem recvLoop_zero {sched : List IoResult} {stream : List UInt8} {st : RecvSt}
    (h : st.toRecv = 0) : recvLoop sched stream st = .ret 1 st.buf stream := by
  cases sched with
  | nil => rw [recvLoop, if_pos h]
  | cons r sched => rw [recvLoop.eq_def]; exact if_pos h

theorem recvLoop_nil {stream : List UInt8} {st : RecvSt} (h : st.toRecv ≠ 0) :
    recvLoop [] stream st = .blocked st stream := by
  rw [recvLoop, if_neg h]

theorem recvLoop_error {sched : List IoResult} {stream : List UInt8} {st : RecvSt}
    (h : st.toRecv ≠ 0) : recvLoop (.error :: sched) stream st = .ret (-1) st.buf stream := by
  rw [recvLoop.eq_def]
  exact if_neg h

theorem recvLoop_eintr {sched : List IoResult} {stream : List UInt8} {st : RecvSt}
    (h : st.toRecv ≠ 0) :
    recvLoop (.eintr :: sched) stream st = recvLoop sched stream st.retreat := by
  rw [recvLoop.eq_def]
  exact if_neg h

/-- One call that moves `k` bytes. -/
theorem recvLoop_moved {n k : Nat} {sched : List IoResult} {stream : List UInt8}
    {st : RecvSt} (h : st.toRecv ≠ 0)
    (hk : min n (min st.toRecv stream.length) = k) :
    recvLoop (.moved n :: sched) stream st =
      if k = 0 then .ret 0 st.buf stream
      else
        match st.store (stream.take k) with
        | none => .overflow
        | some st' => recvLoop sched (stream.drop k) st' := by
  subst hk
  rw [recvLoop.eq_def]
  exact if_neg h

/-- A call that closes the stream. -/
theorem recvLoop_moved_zero {sched : List IoResult} {stream : List UInt8} {st : RecvSt}
    (h : st.toRecv ≠ 0) : recvLoop (.moved 0 :: sched) stream st = .ret 0 st.buf stream := by
  rw [recvLoop_moved h rfl, if_pos (Nat.zero_min _)]

/-- A call on a stream that still holds the whole rest of the message takes what
it gets of what is wanted. -/
theorem recvLoop_chunk {m buf : Msg} (hm : m.Sized) {rest bs stream : List UInt8} {n k : Nat}
    {sched : List IoResult} (heq : bs ++ stream = m.wire ++ rest)
    (hle : bs.length ≤ m.wire.length) (hn : n ≠ 0)
    (hw : wanted (getSize8 m).toNat bs.length ≠ 0)
    (hk : min n (wanted (getSize8 m).toNat bs.length) = k) :
    recvLoop (.moved n :: sched) stream (recvAt buf (getSize8 m).toNat bs) =
        recvLoop sched (stream.drop k) (recvAt buf (getSize8 m).toNat (bs ++ stream.take k)) ∧
      (bs ++ stream.take k).length = bs.length + k ∧ k ≠ 0 ∧
      (bs ++ stream.take k) ++ stream.drop k = m.wire ++ rest ∧
      (bs ++ stream.take k).length ≤ m.wire.length := by
  have hwl := Msg.length_wire hm
  have hz := wanted_eq_zero hm bs.length (by omega)
  have hwle := wanted_le hm bs.length
  have htot : bs.length + stream.length = m.wire.length + rest.length := by
    have := congrArg List.length heq
    simpa using this
  have hne := hz.not.mp hw
  have hns : k ≤ stream.length := by omega
  have hn0 : k ≠ 0 := by omega
  have hchunk : (stream.take k).length = k := by rw [List.length_take, Nat.min_eq_left hns]
  have hlen : (bs ++ stream.take k).length = bs.length + k := by rw [List.length_append, hchunk]
  have hsplit : (bs ++ stream.take k) ++ stream.drop k = m.wire ++ rest := by
    rw [List.append_assoc, List.take_append_drop, heq]
  have hshort : (bs ++ stream.take k).length ≤ m.wire.length := by omega
  have hpre : bs ++ stream.take k <+: m.wire :=
    List.prefix_of_prefix_length_le ⟨_, hsplit⟩ (List.prefix_append _ _) hshort
  have hstore := store_recvAt hm buf hpre
    (fun h => by rw [h] at hchunk; exact hn0 hchunk.symm) (by omega)
  have hk' : min n (min (recvAt buf (getSize8 m).toNat bs).toRecv stream.length) = k := by
    simp only [recvAt]; omega
  refine ⟨?_, hlen, hn0, hsplit, hshort⟩
  rw [recvLoop_moved hw hk', if_neg hn0, hstore]

/-- The loop on a stream that still holds the whole rest of the message. -/
theorem recvLoop_complete {m buf : Msg} (hm : m.Sized) {rest : List UInt8} :
    ∀ {sched : List IoResult} {bs stream : List UInt8}, Pieces sched →
      bs ++ stream = m.wire ++ rest → bs.length ≤ m.wire.length →
      m.wire.length - bs.length ≤ sched.length →
      recvLoop sched stream (recvAt buf (getSize8 m).toNat bs) =
        .ret 1 (buf.over m.wire) rest := by
  have hwl := Msg.length_wire hm
  have hdone : ∀ {bs stream : List UInt8}, bs ++ stream = m.wire ++ rest →
      bs.length = m.wire.length → bs = m.wire ∧ stream = rest :=
    fun heq hlen => List.append_inj heq hlen
  intro sched
  induction sched with
  | nil =>
      intro bs stream _ heq hle hsched
      have hlen : bs.length = m.wire.length := by
        simp only [List.length_nil] at hsched; omega
      obtain ⟨rfl, rfl⟩ := hdone heq hlen
      rw [recvLoop]
      exact if_pos ((wanted_eq_zero hm _ (by omega)).mpr (by omega))
  | cons r sched ih =>
      intro bs stream hp heq hle hsched
      have hz := wanted_eq_zero hm bs.length (by omega)
      by_cases hw : wanted (getSize8 m).toNat bs.length = 0
      · obtain ⟨rfl, rfl⟩ := hdone heq (by rw [hwl]; exact hz.mp hw)
        exact recvLoop_zero hw
      · obtain ⟨n, rfl⟩ := hp r (by simp)
        have hrest : Pieces sched := fun r hr => hp r (by simp [hr])
        obtain ⟨hloop, hlen, hn0, hsplit, hshort⟩ :=
          @recvLoop_chunk m buf hm rest bs stream (n + 1) _ sched heq hle (Nat.succ_ne_zero n) hw
            rfl
        rw [hloop]
        refine ih hrest hsplit hshort ?_
        rw [hlen]
        simp only [List.length_cons] at hsched
        omega

/-- The loop on a stream that ends inside the message. -/
theorem recvLoop_cut {m buf : Msg} (hm : m.Sized) :
    ∀ {sched : List IoResult} {bs stream : List UInt8}, Pieces sched →
      bs ++ stream <+: m.wire → (bs ++ stream).length < m.wire.length →
      stream.length < sched.length →
      ∃ buf', recvLoop sched stream (recvAt buf (getSize8 m).toNat bs) =
        .ret 0 buf' [] := by
  have hwl := Msg.length_wire hm
  intro sched
  induction sched with
  | nil => intro bs stream _ _ _ hsched; exact absurd hsched (Nat.not_lt_zero _)
  | cons r sched ih =>
      intro bs stream hp hpre hlt hsched
      rw [List.length_append] at hlt
      have hz := wanted_eq_zero hm bs.length (by omega)
      have hw : wanted (getSize8 m).toNat bs.length ≠ 0 := hz.not.mpr (by omega)
      obtain ⟨k, rfl⟩ := hp r (by simp)
      have hrest : Pieces sched := fun r hr => hp r (by simp [hr])
      obtain ⟨n, hn⟩ : ∃ n, min (k + 1)
          (min (recvAt buf (getSize8 m).toNat bs).toRecv stream.length) = n := ⟨_, rfl⟩
      rw [recvLoop_moved hw hn]
      have hnw : n ≤ wanted (getSize8 m).toNat bs.length := by
        simp only [recvAt] at hn; omega
      have hns : n ≤ stream.length := by omega
      by_cases hn0 : n = 0
      · have hnil : stream = [] := by
          refine List.length_eq_zero_iff.mp ?_
          simp only [recvAt] at hn; omega
        subst hnil
        exact ⟨_, if_pos hn0⟩
      · have hchunk : (stream.take n).length = n := by
          rw [List.length_take, Nat.min_eq_left hns]
        have hsplit : (bs ++ stream.take n) ++ stream.drop n = bs ++ stream := by
          rw [List.append_assoc, List.take_append_drop]
        have hstore := store_recvAt hm buf
          (List.IsPrefix.trans ⟨_, hsplit⟩ hpre)
          (fun h => by rw [h] at hchunk; exact hn0 hchunk.symm) (by omega)
        rw [if_neg hn0, hstore]
        refine ih hrest (by rw [hsplit]; exact hpre) ?_ ?_
        · rw [hsplit, List.length_append]; exact hlt
        · rw [List.length_drop]
          simp only [List.length_cons] at hsched
          omega

/-- `recvMsg` on a stream that starts with a whole message: 1, the message
over the old contents of the buffer, and not a byte more consumed. -/
theorem recvMsg_complete {m buf : Msg} {sched : List IoResult} {rest : List UInt8}
    (hm : m.Sized) (hp : Pieces sched) (hlen : m.wire.length ≤ sched.length) :
    recvMsg sched (m.wire ++ rest) buf = .ret 1 (buf.over m.wire) rest := by
  rw [recvMsg, ← recvAt_nil buf (getSize8 m).toNat]
  exact recvLoop_complete hm hp (by simp) (by simp) (by simpa using hlen)

/-- `recvMsg` on a stream that ends inside the message: 0. -/
theorem recvMsg_cut {m : Msg} {sched : List IoResult} {stream : List UInt8}
    (buf : Msg) (hm : m.Sized) (hp : Pieces sched) (hpre : stream <+: m.wire)
    (hlt : stream.length < m.wire.length) (hlen : stream.length < sched.length) :
    ∃ buf', recvMsg sched stream buf = .ret 0 buf' [] := by
  rw [recvMsg, ← recvAt_nil buf (getSize8 m).toNat]
  exact recvLoop_cut hm hp (by simpa using hpre) (by simpa using hlt) hlen

end DistQueue
