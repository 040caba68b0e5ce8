import DistQueue.Proto.Bounds
import DistQueue.Proto.Stream

/-!
# Interrupted calls

Both loops go on after `EINTR`, and take the -1 that came with it off the count
and add it to the pointer. From there on the sender is one byte behind and
sends one byte more, and the receiver stores every byte one place too low, the
first of a message in front of the buffer.

An interrupt leaves no trace only where nothing is transferred behind it: the
message is through, or the next call fails or does not come back.
-/

namespace DistQueue

open DistQueue.Lib

/-- The schedule without its interrupts. -/
def uninterrupt (sched : List IoResult) : List IoResult := sched.filter fun r => r ≠ .eintr

/-- Interrupts, and then a call that fails or none; `left` is the count at the
first one. -/
def Stalls : List IoResult → (left : Nat) → Prop
  | [], _ | .error :: _, _ => True
  | .moved n :: _, _ => n = 0
  | .eintr :: sched, left => left + 1 < sizeT ∧ Stalls sched (left + 1)

/-- With `want got` bytes to go behind `got`: no call is interrupted before a
transfer. -/
def Unharmed (want : Nat → Nat) : List IoResult → (got : Nat) → Prop
  | [], _ => True
  | r :: sched, got =>
      want got = 0 ∨
        match r with
        | .error => True
        | .moved n => n = 0 ∨ Unharmed want sched (got + min n (want got))
        | .eintr => Stalls (.eintr :: sched) (want got)

instance Stalls.decidable : (sched : List IoResult) → (left : Nat) →
    Decidable (Stalls sched left)
  | [], _ | .error :: _, _ => isTrue trivial
  | .moved n :: _, _ => inferInstanceAs (Decidable (n = 0))
  | .eintr :: sched, left =>
      have := Stalls.decidable sched (left + 1)
      inferInstanceAs (Decidable (left + 1 < sizeT ∧ Stalls sched (left + 1)))

instance Unharmed.decidable (want : Nat → Nat) : (sched : List IoResult) → (got : Nat) →
    Decidable (Unharmed want sched got)
  | [], _ => isTrue trivial
  | .error :: _, got => inferInstanceAs (Decidable (want got = 0 ∨ True))
  | .moved n :: sched, got =>
      have := Unharmed.decidable want sched (got + min n (want got))
      inferInstanceAs (Decidable (want got = 0 ∨ n = 0 ∨
        Unharmed want sched (got + min n (want got))))
  | .eintr :: sched, got =>
      inferInstanceAs (Decidable (want got = 0 ∨ Stalls (.eintr :: sched) (want got)))

/-- What the first call that is not interrupted makes the loops return. -/
def firstReturn : List IoResult → Option Int
  | [] => none
  | .error :: _ => some (-1)
  | .moved _ :: _ => some 0
  | .eintr :: sched => firstReturn sched

@[simp] theorem uninterrupt_nil : uninterrupt [] = [] := rfl

@[simp] theorem uninterrupt_error (sched : List IoResult) :
    uninterrupt (.error :: sched) = .error :: uninterrupt sched := rfl

@[simp] theorem uninterrupt_moved (n : Nat) (sched : List IoResult) :
    uninterrupt (.moved n :: sched) = .moved n :: uninterrupt sched := rfl

@[simp] theorem uninterrupt_eintr (sched : List IoResult) :
    uninterrupt (.eintr :: sched) = uninterrupt sched := rfl

theorem uninterrupted_uninterrupt (sched : List IoResult) :
    Uninterrupted (uninterrupt sched) := by
  intro r hr
  simpa using (List.mem_filter.mp hr).2

/-! ## Sending -/

section Send

variable {mem : Int → UInt8}

theorem retreat_toSend {st : SendSt} (h : st.toSend + 1 < sizeT) :
    st.retreat = ⟨st.ptr - 1, st.toSend + 1⟩ := by
  rw [SendSt.retreat, Nat.mod_eq_of_lt h]

theorem sendLoop_stalls : ∀ {sched : List IoResult} {st : SendSt}, st.toSend ≠ 0 →
    Stalls sched st.toSend → sendLoop mem sched st = ([], firstReturn sched) := by
  intro sched
  induction sched with
  | nil => intro st h _; rw [sendLoop, if_neg h]; rfl
  | cons r sched ih =>
      intro st h hs
      rw [sendLoop.eq_def]
      simp only [if_neg h]
      cases r with
      | error => rfl
      | moved n =>
          have hn : n = 0 := hs
          exact if_pos hn
      | eintr =>
          obtain ⟨hlt, hs⟩ := hs
          rw [retreat_toSend hlt]
          exact @ih ⟨st.ptr - 1, st.toSend + 1⟩ (Nat.succ_ne_zero _) hs

theorem sendLoop_uninterrupt_stalls : ∀ {sched : List IoResult} {st : SendSt} {left : Nat},
    st.toSend ≠ 0 → Stalls sched left →
    sendLoop mem (uninterrupt sched) st = ([], firstReturn sched) := by
  intro sched
  induction sched with
  | nil => intro st left h _; rw [uninterrupt_nil, sendLoop, if_neg h]; rfl
  | cons r sched ih =>
      intro st left h hs
      cases r with
      | error =>
          rw [uninterrupt_error, sendLoop.eq_def]
          simp only [if_neg h]
          rfl
      | moved n =>
          have hn : n = 0 := hs
          rw [uninterrupt_moved, sendLoop.eq_def]
          simp only [if_neg h, if_pos hn]
          rfl
      | eintr => exact ih h hs.2

/-- The first byte that is sent behind interrupts is that many before the one
that was its turn. -/
theorem sendLoop_head : ∀ {sched : List IoResult} {st : SendSt}, st.toSend ≠ 0 →
    st.toSend + sched.length < sizeT → ¬ Stalls sched st.toSend →
    ∃ j : Nat, (∀ mem, (sendLoop mem sched st).1.head? = some (mem (st.ptr - j))) ∧
      ∀ mem st', st'.toSend ≠ 0 →
        (sendLoop mem (uninterrupt sched) st').1.head? = some (mem st'.ptr) := by
  intro sched
  have hmoved : ∀ {n : Nat} {sched : List IoResult} {mem : Int → UInt8} {st : SendSt},
      n ≠ 0 → st.toSend ≠ 0 →
      (sendLoop mem (.moved n :: sched) st).1.head? = some (mem st.ptr) := by
    intro n sched mem st hn h
    obtain ⟨k, hk⟩ : ∃ k, min n st.toSend = k + 1 := ⟨min n st.toSend - 1, by omega⟩
    rw [sendLoop.eq_def]
    simp only [if_neg h, if_neg hn, hk]
    rw [window, List.range_succ_eq_map, List.map_cons, List.cons_append, List.head?_cons]
    simp
  induction sched with
  | nil => intro st _ _ hs; exact absurd trivial hs
  | cons r sched ih =>
      intro st h hlen hs
      rw [List.length_cons] at hlen
      cases r with
      | error => exact absurd trivial hs
      | moved n =>
          have hn : n ≠ 0 := hs
          exact ⟨0, fun mem => by rw [hmoved hn h]; simp, fun mem st' h' => hmoved hn h'⟩
      | eintr =>
          have hlt : st.toSend + 1 < sizeT := by omega
          obtain ⟨j, hj, hj'⟩ := @ih ⟨st.ptr - 1, st.toSend + 1⟩ (Nat.succ_ne_zero _)
            (by show st.toSend + 1 + _ < _; omega) (fun hs' => hs ⟨hlt, hs'⟩)
          refine ⟨j + 1, fun mem => ?_, hj'⟩
          rw [sendLoop.eq_def]
          simp only [if_neg h]
          rw [retreat_toSend hlt, hj mem]
          congr 2
          push_cast
          omega

/-- A call that sends something. -/
theorem sendLoop_moved {sz got n : Nat} {sched : List IoResult} (hn : n ≠ 0)
    (h : sz - got ≠ 0) :
    sendLoop mem (.moved n :: sched) ⟨got, sz - got⟩ =
      (window mem got (min n (sz - got)) ++
          (sendLoop mem sched ⟨(got + min n (sz - got) : Nat), sz - (got + min n (sz - got))⟩).1,
        (sendLoop mem sched
          ⟨(got + min n (sz - got) : Nat), sz - (got + min n (sz - got))⟩).2) := by
  have hadv : SendSt.advance ⟨got, sz - got⟩ (min n (sz - got)) =
      ⟨(got + min n (sz - got) : Nat), sz - (got + min n (sz - got))⟩ := by
    rw [SendSt.advance, Nat.sub_add_eq, Nat.cast_add]
  rw [sendLoop.eq_def]
  simp only [if_neg h, if_neg hn, hadv]

theorem sendLoop_unharmed {sz : Nat} : ∀ {sched : List IoResult} {got : Nat},
    Unharmed (sz - ·) sched got →
    sendLoop mem sched ⟨got, sz - got⟩ = sendLoop mem (uninterrupt sched) ⟨got, sz - got⟩ := by
  intro sched
  induction sched with
  | nil => intro got _; rfl
  | cons r sched ih =>
      intro got h
      by_cases hz : sz - got = 0
      · rw [sendLoop_zero hz, sendLoop_zero hz]
      have hr := h.resolve_left hz
      cases r with
      | error =>
          rw [uninterrupt_error, sendLoop.eq_def, sendLoop.eq_def]
      | moved n =>
          rw [uninterrupt_moved]
          by_cases hn : n = 0
          · rw [sendLoop.eq_def, sendLoop.eq_def]
            simp only [if_neg hz, if_pos hn]
          · rw [sendLoop_moved hn hz, sendLoop_moved hn hz, ih (hr.resolve_left hn)]
      | eintr =>
          rw [uninterrupt_eintr]
          have hstalls : Stalls (.eintr :: sched) (sz - got) := hr
          rw [sendLoop_stalls hz hstalls, sendLoop_uninterrupt_stalls hz hstalls.2]
          rfl

/-- The interrupt shows in what is sent next, in memory that tells the byte whose
turn it is from all before it. -/
theorem sendLoop_eintr_sent {sz got : Nat} {sched : List IoResult}
    (hlen : sz + sched.length + 1 < sizeT) (hz : sz - got ≠ 0)
    (hs : ¬ Stalls (.eintr :: sched) (sz - got)) :
    ∃ mem, sendLoop mem (.eintr :: sched) ⟨got, sz - got⟩ ≠
      sendLoop mem (uninterrupt sched) ⟨got, sz - got⟩ := by
  have hlt : sz - got + 1 < sizeT := by omega
  obtain ⟨j, hj, hj'⟩ := @sendLoop_head sched ⟨got - 1, sz - got + 1⟩
    (Nat.succ_ne_zero _) (by show sz - got + 1 + _ < _; omega) (fun hs' => hs ⟨hlt, hs'⟩)
  obtain ⟨mem, hmem⟩ : ∃ mem : Int → UInt8, ∀ i, mem i = if i < (got : Int) then 0 else 1 :=
    ⟨_, fun _ => rfl⟩
  refine ⟨mem, fun h => ?_⟩
  have hfirst : (sendLoop mem (.eintr :: sched) ⟨got, sz - got⟩).1.head? =
      (sendLoop mem (uninterrupt sched) ⟨got, sz - got⟩).1.head? := by
    rw [h]
  rw [hj' mem ⟨got, sz - got⟩ hz, sendLoop.eq_def] at hfirst
  simp only [if_neg hz] at hfirst
  rw [retreat_toSend hlt, hj mem, Option.some_inj, hmem, hmem] at hfirst
  rw [if_pos (show (got : Int) - 1 - j < got by omega), if_neg (lt_irrefl _)] at hfirst
  cases hfirst

theorem unharmed_of_sendLoop {sz : Nat} : ∀ {sched : List IoResult} {got : Nat},
    sz + sched.length < sizeT →
    (∀ mem, sendLoop mem sched ⟨got, sz - got⟩ =
      sendLoop mem (uninterrupt sched) ⟨got, sz - got⟩) →
    Unharmed (sz - ·) sched got := by
  intro sched
  induction sched with
  | nil => intro got _ _; trivial
  | cons r sched ih =>
      intro got hlen h
      rw [List.length_cons] at hlen
      by_cases hz : sz - got = 0
      · exact .inl hz
      refine .inr ?_
      cases r with
      | error => trivial
      | moved n =>
          by_cases hn : n = 0
          · exact .inl hn
          · refine .inr (ih (by omega) fun mem => ?_)
            have hmem := h mem
            rw [uninterrupt_moved, sendLoop_moved hn hz, sendLoop_moved hn hz] at hmem
            injection hmem with hbytes hcode
            exact Prod.ext (List.append_cancel_left hbytes) hcode
      | eintr =>
          by_contra hs
          obtain ⟨mem, hmem⟩ := sendLoop_eintr_sent (by omega) hz hs
          exact hmem (h mem)

end Send

/-! ## Receiving -/

/-- The return value, if there is one yet, what `*msg` holds and what is left of
the stream; `none` for a store outside of `*msg`. -/
def RecvOut.seen : RecvOut → Option (Option Int × Msg × List UInt8)
  | .ret code buf rest => some (some code, buf, rest)
  | .blocked st rest => some (none, st.buf, rest)
  | .overflow => none

section Recv

variable {m buf : Msg} {rest : List UInt8}

theorem RecvSt.retreat_eq {st : RecvSt} (h : st.toRecv + 1 < sizeT) :
    st.retreat = { st with ptr := st.ptr - 1, toRecv := st.toRecv + 1 } := by
  rw [RecvSt.retreat, Nat.mod_eq_of_lt h, RecvSt.switch, if_neg (fun h => absurd h.1 (by simp))]

theorem recvLoop_stalls {stream : List UInt8} : ∀ {sched : List IoResult} {st : RecvSt},
    st.toRecv ≠ 0 → Stalls sched st.toRecv →
    (recvLoop sched stream st).seen = some (firstReturn sched, st.buf, stream) := by
  intro sched
  induction sched with
  | nil => intro st h _; rw [recvLoop_nil h]; rfl
  | cons r sched ih =>
      intro st h hs
      cases r with
      | error => rw [recvLoop_error h]; rfl
      | moved n =>
          obtain rfl : n = 0 := hs
          rw [recvLoop_moved_zero h]
          rfl
      | eintr =>
          obtain ⟨hlt, hs⟩ := hs
          rw [recvLoop_eintr h, RecvSt.retreat_eq hlt]
          exact @ih { st with ptr := st.ptr - 1, toRecv := st.toRecv + 1 } (Nat.succ_ne_zero _) hs

theorem recvLoop_uninterrupt_stalls {stream : List UInt8} : ∀ {sched : List IoResult}
    {st : RecvSt} {left : Nat}, st.toRecv ≠ 0 → Stalls sched left →
    (recvLoop (uninterrupt sched) stream st).seen =
      some (firstReturn sched, st.buf, stream) := by
  intro sched
  induction sched with
  | nil => intro st left h _; rw [uninterrupt_nil, recvLoop_nil h]; rfl
  | cons r sched ih =>
      intro st left h hs
      cases r with
      | error =>
          rw [uninterrupt_error, recvLoop_error h]
          rfl
      | moved n =>
          obtain rfl : n = 0 := hs
          rw [uninterrupt_moved, recvLoop_moved_zero h]
          rfl
      | eintr => exact ih h hs.2

theorem recvLoop_unharmed (hm : m.Sized) : ∀ {sched : List IoResult} {bs stream : List UInt8},
    Unharmed (wanted (getSize8 m).toNat) sched bs.length →
    bs ++ stream = m.wire ++ rest → bs.length ≤ m.wire.length →
    (recvLoop sched stream (recvAt buf (getSize8 m).toNat bs)).seen =
      (recvLoop (uninterrupt sched) stream (recvAt buf (getSize8 m).toNat bs)).seen := by
  intro sched
  induction sched with
  | nil => intro bs stream _ _ _; rfl
  | cons r sched ih =>
      intro bs stream h heq hle
      by_cases hz : wanted (getSize8 m).toNat bs.length = 0
      · rw [recvLoop_zero hz, recvLoop_zero hz]
      have hr := h.resolve_left hz
      cases r with
      | error => rw [uninterrupt_error, recvLoop_error hz, recvLoop_error hz]
      | moved n =>
          rw [uninterrupt_moved]
          by_cases hn : n = 0
          · subst hn
            rw [recvLoop_moved_zero hz, recvLoop_moved_zero hz]
          · obtain ⟨hloop, hlen, -, hsplit, hshort⟩ :=
              @recvLoop_chunk m buf hm rest bs stream n _ sched heq hle hn hz rfl
            obtain ⟨hloop', -, -, -, -⟩ :=
              @recvLoop_chunk m buf hm rest bs stream n _ (uninterrupt sched) heq hle hn hz rfl
            rw [hloop, hloop']
            exact ih (by rw [hlen]; exact hr.resolve_left hn) hsplit hshort
      | eintr =>
          have hstalls : Stalls (.eintr :: sched) (wanted (getSize8 m).toNat bs.length) := hr
          rw [uninterrupt_eintr, recvLoop_stalls hz hstalls,
            recvLoop_uninterrupt_stalls hz hstalls.2]
          rfl

/-- Without interrupts, what is taken of the stream is where it belongs. -/
theorem recvLoop_uninterrupted (hm : m.Sized) : ∀ {sched : List IoResult} {bs stream : List UInt8},
    Uninterrupted sched → bs ++ stream = m.wire ++ rest → bs.length ≤ m.wire.length →
    ∃ code bs' stream', (recvLoop sched stream (recvAt buf (getSize8 m).toNat bs)).seen =
        some (code, buf.over bs', stream') ∧
      bs' ++ stream' = m.wire ++ rest ∧ bs.length ≤ bs'.length ∧
      bs'.length ≤ m.wire.length := by
  intro sched
  induction sched with
  | nil =>
      intro bs stream _ heq hle
      rw [recvLoop]
      split
      · exact ⟨some 1, bs, stream, rfl, heq, Nat.le_refl _, hle⟩
      · exact ⟨none, bs, stream, rfl, heq, Nat.le_refl _, hle⟩
  | cons r sched ih =>
      intro bs stream hu heq hle
      have hrest : Uninterrupted sched := fun r hr => hu r (List.mem_cons_of_mem _ hr)
      by_cases hz : wanted (getSize8 m).toNat bs.length = 0
      · rw [recvLoop_zero hz]
        exact ⟨some 1, bs, stream, rfl, heq, Nat.le_refl _, hle⟩
      cases r with
      | error =>
          rw [recvLoop_error hz]
          exact ⟨some (-1), bs, stream, rfl, heq, Nat.le_refl _, hle⟩
      | moved n =>
          by_cases hn : n = 0
          · subst hn
            rw [recvLoop_moved_zero hz]
            exact ⟨some 0, bs, stream, rfl, heq, Nat.le_refl _, hle⟩
          · obtain ⟨hloop, hlen, -, hsplit, hshort⟩ :=
              @recvLoop_chunk m buf hm rest bs stream n _ sched heq hle hn hz rfl
            rw [hloop]
            obtain ⟨code, bs', stream', hseen, heq', hle', hshort'⟩ := ih hrest hsplit hshort
            exact ⟨code, bs', stream', hseen, heq', by omega, hshort'⟩
      | eintr => exact absurd rfl (hu .eintr (List.mem_cons_self ..))

/-- With `c` bytes taken and `calls` calls to come the loop is a byte or more
behind, and what is at `top` and above in the buffer was there before. -/
structure Lags (buf : Msg) (c top calls : Nat) (st : RecvSt) : Prop where
  behind : st.ptr + 1 ≤ c
  untouched : ∀ i, top ≤ i → st.buf.bytes[i]? = buf.bytes[i]?
  header : st.headerRecvd = false → st.ptr + st.toRecv = sizeofHeader
  room : st.headerRecvd = false → st.toRecv + calls < sizeT

theorem Lags.store {c top calls : Nat} {st st' : RecvSt} {chunk : List UInt8}
    (h : Lags buf c top (calls + 1) st) (htop : top ≤ c) (hne : chunk ≠ [])
    (hlen : chunk.length ≤ st.toRecv) (hst : st.store chunk = some st') :
    Lags buf (c + chunk.length) (c + chunk.length - 1) calls st' := by
  have hpos : 0 < chunk.length := List.length_pos_iff.mpr hne
  have hbehind := h.behind
  unfold RecvSt.store at hst
  split at hst
  · next hfit =>
      injection hst with hst
      subst hst
      have huntouched : ∀ i, c + chunk.length - 1 ≤ i →
          (st.buf.put ⟨st.ptr.toNat, hfit.2⟩ chunk rfl).bytes[i]? = buf.bytes[i]? := by
        intro i hi
        have hoff : st.ptr.toNat ≤ st.buf.bytes.length := by rw [st.buf.size]; omega
        have hpast : st.ptr.toNat + chunk.length ≤ i := by omega
        rw [← h.untouched i (by omega)]
        exact getElem?_splice_after hoff hpast
      unfold RecvSt.switch
      split
      · next hswitch =>
          have hheader := h.header hswitch.2
          have hzero : st.toRecv - chunk.length = 0 := hswitch.1
          refine ⟨?_, huntouched, fun hfalse => (by cases hfalse), fun hfalse => (by cases hfalse)⟩
          show (sizeofHeader : Int) + 1 ≤ _
          omega
      · refine ⟨?_, huntouched, fun hfalse => ?_, fun hfalse => ?_⟩
        · show st.ptr + chunk.length + 1 ≤ _
          omega
        · have hheader := h.header hfalse
          show st.ptr + chunk.length + (st.toRecv - chunk.length : Nat) = _
          omega
        · have hroom := h.room hfalse
          show st.toRecv - chunk.length + _ < _
          omega
  · cases hst

theorem Lags.retreat {c top calls : Nat} {st : RecvSt} (h : Lags buf c top (calls + 1) st) :
    Lags buf c top calls st.retreat := by
  have hbehind := h.behind
  cases hd : st.headerRecvd with
  | false =>
      have hheader := h.header hd
      have hroom := h.room hd
      rw [RecvSt.retreat_eq (by omega)]
      refine ⟨?_, h.untouched, fun _ => ?_, fun _ => ?_⟩
      · show st.ptr - 1 + 1 ≤ _
        omega
      · show st.ptr - 1 + (st.toRecv + 1 : Nat) = _
        omega
      · show st.toRecv + 1 + _ < _
        omega
  | true =>
      have hstay : st.retreat = { st with ptr := st.ptr - 1, toRecv := (st.toRecv + 1) % sizeT } :=
        if_neg fun hz => by simp [hd] at hz
      have hpayload : ¬ st.headerRecvd = false := by rw [hd]; exact Bool.noConfusion
      rw [hstay]
      refine ⟨?_, h.untouched, fun hf => absurd hf hpayload, fun hf => absurd hf hpayload⟩
      show st.ptr - 1 + 1 ≤ _
      omega

/-- Where a loop that lags ends: outside of the buffer, or with the last byte it
took not in its place. -/
def EndsBehind (buf : Msg) (stream : List UInt8) (c : Nat) (out : RecvOut) : Prop :=
  out.seen = none ∨ ∃ c' code buf', out.seen = some (code, buf', stream.drop c') ∧
    c ≤ c' ∧ c' ≤ stream.length ∧ ∀ i, c' - 1 ≤ i → buf'.bytes[i]? = buf.bytes[i]?

theorem EndsBehind.mono {stream : List UInt8} {c c₀ : Nat} {out : RecvOut} (hle : c₀ ≤ c)
    (h : EndsBehind buf stream c out) : EndsBehind buf stream c₀ out := by
  rcases h with hnone | ⟨c', code, buf', hseen, hc, hrest⟩
  · exact .inl hnone
  · exact .inr ⟨c', code, buf', hseen, Nat.le_trans hle hc, hrest⟩

/-- One call that takes something, and what the calls behind it lead to. -/
theorem Lags.moved {stream : List UInt8} {sched : List IoResult} {c top n : Nat} {st : RecvSt}
    (hl : Lags buf c top (sched.length + 1) st) (htop : top ≤ c) (hc : c ≤ stream.length)
    (hz : st.toRecv ≠ 0) (hk : min n (min st.toRecv (stream.drop c).length) ≠ 0)
    (hrest : ∀ {c' st'}, Lags buf c' (c' - 1) sched.length st' → c' ≤ stream.length →
      EndsBehind buf stream c' (recvLoop sched (stream.drop c') st')) :
    EndsBehind buf stream (c + 1) (recvLoop (.moved n :: sched) (stream.drop c) st) := by
  obtain ⟨k, hk'⟩ : ∃ k, min n (min st.toRecv (stream.drop c).length) = k := ⟨_, rfl⟩
  rw [hk'] at hk
  rw [recvLoop_moved hz hk', if_neg hk]
  rw [List.length_drop] at hk'
  have hchunk : ((stream.drop c).take k).length = k := by
    rw [List.length_take, List.length_drop]
    omega
  cases hst : st.store ((stream.drop c).take k) with
  | none => exact .inl rfl
  | some st' =>
      have hl' := hl.store htop (List.length_pos_iff.mp (by omega)) (by omega) hst
      rw [hchunk] at hl'
      rw [List.drop_drop]
      exact (hrest hl' (by omega)).mono (by omega)

theorem recvLoop_lags {stream : List UInt8} : ∀ {sched : List IoResult} {c : Nat} {st : RecvSt},
    Lags buf c (c - 1) sched.length st → c ≤ stream.length →
    EndsBehind buf stream c (recvLoop sched (stream.drop c) st) := by
  intro sched
  induction sched with
  | nil =>
      intro c st hl hc
      rw [recvLoop]
      split
      · exact .inr ⟨c, some 1, st.buf, rfl, Nat.le_refl _, hc, hl.untouched⟩
      · exact .inr ⟨c, none, st.buf, rfl, Nat.le_refl _, hc, hl.untouched⟩
  | cons r sched ih =>
      intro c st hl hc
      have hends : ∀ code, EndsBehind buf stream c (.ret code st.buf (stream.drop c)) :=
        fun code => .inr ⟨c, some code, st.buf, rfl, Nat.le_refl _, hc, hl.untouched⟩
      by_cases hz : st.toRecv = 0
      · rw [recvLoop_zero hz]
        exact hends 1
      cases r with
      | error =>
          rw [recvLoop_error hz]
          exact hends (-1)
      | eintr =>
          rw [recvLoop_eintr hz]
          exact ih hl.retreat hc
      | moved n =>
          by_cases hk : min n (min st.toRecv (stream.drop c).length) = 0
          · rw [recvLoop_moved hz hk, if_pos rfl]
            exact hends 0
          · exact (hl.moved (Nat.sub_le _ _) hc hz hk ih).mono (Nat.le_succ c)

/-- Interrupts and then a transfer. -/
theorem recvLoop_not_stalls {stream : List UInt8} : ∀ {sched : List IoResult} {c : Nat}
    {st : RecvSt}, Lags buf c c sched.length st → c < stream.length → st.toRecv ≠ 0 →
    st.toRecv + sched.length < sizeT → ¬ Stalls sched st.toRecv →
    EndsBehind buf stream (c + 1) (recvLoop sched (stream.drop c) st) := by
  intro sched
  induction sched with
  | nil => intro c st _ _ _ _ hs; exact absurd trivial hs
  | cons r sched ih =>
      intro c st hl hc hz hroom hs
      rw [List.length_cons] at hroom
      cases r with
      | error => exact absurd trivial hs
      | moved n =>
          have hn : n ≠ 0 := hs
          refine hl.moved (Nat.le_refl c) (Nat.le_of_lt hc) hz ?_ recvLoop_lags
          rw [List.length_drop]
          omega
      | eintr =>
          have hlt : st.toRecv + 1 < sizeT := by omega
          rw [recvLoop_eintr hz]
          have hl' := hl.retreat
          rw [RecvSt.retreat_eq hlt] at hl' ⊢
          refine ih hl' hc (Nat.succ_ne_zero _) ?_ fun hs' => hs ⟨hlt, hs'⟩
          show st.toRecv + 1 + _ < _
          omega

/-- A buffer that differs from a stream everywhere. -/
theorem exists_differing (stream : List UInt8) :
    ∃ buf : Msg, ∀ i < sizeofMsg, ∀ b, stream[i]? = some b → buf.bytes[i]? ≠ some b := by
  refine ⟨⟨(List.range sizeofMsg).map fun i => stream.getD i 0 + 1, by simp⟩, ?_⟩
  intro i hi b hb h
  simp only [List.getElem?_map, List.getElem?_range hi, Option.map_some, Option.some_inj,
    List.getD_eq_getElem?_getD, hb, Option.getD_some] at h
  have := congrArg UInt8.toNat h
  rw [UInt8.toNat_add, show (1 : UInt8).toNat = 1 from rfl] at this
  have := b.toNat_lt
  omega

/-- The first interrupt puts the loop a byte behind. -/
theorem lags_retreat {sz calls : Nat} {bs : List UInt8} (hin : bs.length ≤ sizeofMsg)
    (hroom : wanted sz bs.length + 1 + calls < sizeT) :
    (recvAt buf sz bs).retreat =
        ⟨buf.over bs, bs.length - 1, wanted sz bs.length + 1, decide (sizeofHeader ≤ bs.length)⟩ ∧
      Lags buf bs.length bs.length calls (recvAt buf sz bs).retreat := by
  have hstate : (recvAt buf sz bs).retreat =
      ⟨buf.over bs, bs.length - 1, wanted sz bs.length + 1,
        decide (sizeofHeader ≤ bs.length)⟩ :=
    RecvSt.retreat_eq (show wanted sz bs.length + 1 < sizeT by omega)
  refine ⟨hstate, ?_⟩
  rw [hstate]
  refine ⟨?_, fun i hi => ?_, fun hd => ?_, fun _ => hroom⟩
  · show (bs.length : Int) - 1 + 1 ≤ _
    omega
  · show (buf.over bs).bytes[i]? = _
    rw [Msg.bytes_over buf hin, List.getElem?_append_right hi, List.getElem?_drop]
    congr 1
    omega
  · have hlt := of_decide_eq_false hd
    show (bs.length : Int) - 1 + (wanted sz bs.length + 1 : Nat) = _
    rw [wanted, if_pos (by omega)]
    omega

/-- The interrupt shows in a buffer that the message does not happen to be in
already. -/
theorem recvLoop_eintr_seen (hm : m.Sized)
    (hbuf : ∀ i < sizeofMsg, ∀ b, (m.wire ++ rest)[i]? = some b → buf.bytes[i]? ≠ some b)
    {sched : List IoResult} {bs stream : List UInt8} (hroom : sizeofMsg + sched.length + 1 < sizeT)
    (heq : bs ++ stream = m.wire ++ rest) (hle : bs.length ≤ m.wire.length)
    (hz : wanted (getSize8 m).toNat bs.length ≠ 0)
    (hs : ¬ Stalls (.eintr :: sched) (wanted (getSize8 m).toNat bs.length)) :
    (recvLoop (.eintr :: sched) stream (recvAt buf (getSize8 m).toNat bs)).seen ≠
      (recvLoop (uninterrupt sched) stream (recvAt buf (getSize8 m).toNat bs)).seen := by
  intro h
  have hwl := Msg.length_wire hm
  have hin := hm.2
  have hwle := wanted_le hm bs.length
  have hne := (wanted_eq_zero hm bs.length (by omega)).not.mp hz
  have hlt : wanted (getSize8 m).toNat bs.length + 1 < sizeT := by omega
  obtain ⟨hstate, hlags⟩ := @lags_retreat buf (getSize8 m).toNat sched.length bs (by omega)
    (by omega)
  have hnot : ¬ Stalls sched (recvAt buf (getSize8 m).toNat bs).retreat.toRecv := by
    rw [hstate]
    exact fun hs' => hs ⟨hlt, hs'⟩
  have hends : EndsBehind buf (m.wire ++ rest) (bs.length + 1)
      (recvLoop sched ((m.wire ++ rest).drop bs.length)
        (recvAt buf (getSize8 m).toNat bs).retreat) := by
    refine recvLoop_not_stalls hlags ?_ ?_ ?_ hnot
    · rw [List.length_append]
      omega
    · rw [hstate]
      exact Nat.succ_ne_zero _
    · rw [hstate]
      show wanted _ _ + 1 + _ < _
      omega
  rw [← heq, List.drop_left] at hends
  obtain ⟨code, bs', stream', hseen, heq', -, hle'⟩ :=
    @recvLoop_uninterrupted m buf rest hm _ bs stream (uninterrupted_uninterrupt sched) heq hle
  rw [hseen, recvLoop_eintr hz] at h
  rcases hends with hnone | ⟨c, code', buf', hseen', hc, hclen, hsame⟩
  · rw [hnone] at h
    cases h
  · rw [hseen', Option.some_inj] at h
    injection h with _ h
    injection h with hover hrest
    -- Both have taken the same bytes, and the last of them is in one buffer only.
    have hcount : c = bs'.length := by
      have hrest' := congrArg List.length hrest
      have hsum := congrArg List.length (heq.trans heq'.symm)
      rw [List.length_drop] at hrest'
      rw [List.length_append] at hrest' hsum hclen
      rw [List.length_append] at hsum
      omega
    have hlt : c - 1 < bs'.length := by omega
    have hlast : (m.wire ++ rest)[c - 1]? = some bs'[c - 1] := by
      rw [← heq', List.getElem?_append_left hlt, List.getElem?_eq_getElem hlt]
    refine hbuf _ (by omega) _ hlast ?_
    rw [← hsame _ (Nat.le_refl _), hover, Msg.bytes_over buf (by omega),
      List.getElem?_append_left hlt, List.getElem?_eq_getElem hlt]

/-- So a schedule that leaves no trace has none that counts. -/
theorem unharmed_of_recvLoop (hm : m.Sized)
    (hbuf : ∀ i < sizeofMsg, ∀ b, (m.wire ++ rest)[i]? = some b → buf.bytes[i]? ≠ some b) :
    ∀ {sched : List IoResult} {bs stream : List UInt8},
    sizeofMsg + sched.length < sizeT → bs ++ stream = m.wire ++ rest →
    bs.length ≤ m.wire.length →
    (recvLoop sched stream (recvAt buf (getSize8 m).toNat bs)).seen =
      (recvLoop (uninterrupt sched) stream (recvAt buf (getSize8 m).toNat bs)).seen →
    Unharmed (wanted (getSize8 m).toNat) sched bs.length := by
  intro sched
  induction sched with
  | nil => intro bs stream _ _ _ _; trivial
  | cons r sched ih =>
      intro bs stream hroom heq hle h
      rw [List.length_cons] at hroom
      by_cases hz : wanted (getSize8 m).toNat bs.length = 0
      · exact .inl hz
      refine .inr ?_
      cases r with
      | error => trivial
      | moved n =>
          by_cases hn : n = 0
          · exact .inl hn
          obtain ⟨hloop, hlen, -, hsplit, hshort⟩ :=
            @recvLoop_chunk m buf hm rest bs stream n _ sched heq hle hn hz rfl
          obtain ⟨hloop', -, -, -, -⟩ :=
            @recvLoop_chunk m buf hm rest bs stream n _ (uninterrupt sched) heq hle hn hz rfl
          rw [uninterrupt_moved, hloop, hloop'] at h
          have := ih (by omega) hsplit hshort h
          rw [hlen] at this
          exact .inr this
      | eintr =>
          by_contra hs
          rw [uninterrupt_eintr] at h
          exact recvLoop_eintr_seen hm hbuf (by omega) heq hle hz hs h

end Recv

/-! ## Both -/

/-- `sendMsg` sends the same bytes of memory and returns the same as without the
interrupts, whatever memory holds. -/
def SendsAlike (sched : List IoResult) (msg : Msg) : Prop :=
  ∀ mem, sendLoop mem sched (.start msg) = sendLoop mem (uninterrupt sched) (.start msg)

/-- `recvMsg` leaves the same in `*msg` and on the stream and returns the same as
without the interrupts, whatever `*msg` held and whatever comes behind. -/
def ReceivesAlike (sched : List IoResult) (msg : Msg) : Prop :=
  ∀ buf rest, (recvMsg sched (msg.wire ++ rest) buf).seen =
    (recvMsg (uninterrupt sched) (msg.wire ++ rest) buf).seen

theorem SendsAlike.sendMsg {sched : List IoResult} {msg : Msg} (h : SendsAlike sched msg)
    (around : Int → UInt8) : sendMsg sched msg around = sendMsg (uninterrupt sched) msg around :=
  h (msg.mem around)

/-- The interrupts of a schedule are invisible if none is before a transfer; and
up to the length at which the counts themselves wrap, only then. -/
theorem interrupts_invisible (sched : List IoResult) (msg : Msg) :
    (Unharmed ((getSize8 msg).toNat - ·) sched 0 → SendsAlike sched msg) ∧
    (msg.Sized → Unharmed (wanted (getSize8 msg).toNat) sched 0 → ReceivesAlike sched msg) ∧
    (2 ^ 16 + sched.length < sizeT →
      (SendsAlike sched msg → Unharmed ((getSize8 msg).toNat - ·) sched 0) ∧
      (msg.Sized → ReceivesAlike sched msg →
        Unharmed (wanted (getSize8 msg).toNat) sched 0)) := by
  have hsize := (getSize8 msg).toNat_lt
  have hmsg : sizeofMsg < 2 ^ 16 := by decide
  refine ⟨fun h mem => ?_, fun hm h buf rest => ?_, fun hlen => ⟨fun h => ?_, fun hm h => ?_⟩⟩
  · exact @sendLoop_unharmed mem (getSize8 msg).toNat sched 0 h
  · have hloop := @recvLoop_unharmed msg buf rest hm sched [] (msg.wire ++ rest) h rfl
      (Nat.zero_le _)
    rw [recvAt_nil] at hloop
    exact hloop
  · exact unharmed_of_sendLoop (by omega) h
  · obtain ⟨buf, hbuf⟩ := exists_differing (msg.wire ++ [])
    refine @unharmed_of_recvLoop msg buf [] hm hbuf sched [] (msg.wire ++ []) (by omega) rfl
      (Nat.zero_le _) ?_
    rw [recvAt_nil]
    exact h buf []

/-- A submission in pieces: it takes interrupts behind its last byte, and none in
front of the second piece. -/
theorem interrupts_invisible_after :
    let msg := setFileExecNoInterClient (Msg.fill 0) [108, 115, 10] [47] 0
    (SendsAlike [.moved 1, .moved 2, .moved 600, .eintr, .eintr] msg ∧
      ReceivesAlike [.moved 1, .moved 2, .moved 600, .eintr, .eintr] msg) ∧
    ¬ SendsAlike [.moved 1, .eintr, .moved 600] msg ∧
      ¬ ReceivesAlike [.moved 1, .eintr, .moved 600] msg := by
  intro msg
  have hsized : msg.Sized := by decide +kernel
  refine ⟨⟨(interrupts_invisible _ _).1 (by decide +kernel),
    (interrupts_invisible _ _).2.1 hsized (by decide +kernel)⟩, fun hsend => ?_, fun hrecv => ?_⟩
  · have hharmed : ¬ Unharmed ((getSize8 msg).toNat - ·) [.moved 1, .eintr, .moved 600] 0 := by
      decide +kernel
    exact hharmed (((interrupts_invisible _ msg).2.2 (by decide)).1 hsend)
  · have hharmed : ¬ Unharmed (wanted (getSize8 msg).toNat) [.moved 1, .eintr, .moved 600] 0 := by
      decide +kernel
    exact hharmed (((interrupts_invisible _ msg).2.2 (by decide)).2 hsized hrecv)

/-- One interrupt before a JOB_REQ: `sendMsg` puts the byte in front of the
message on the wire, and `recvMsg` stores in front of its buffer. -/
theorem interrupts_visible :
    (∃ (msg : Msg) (around : Int → UInt8),
      sendMsg [.eintr, .moved 9] msg around ≠ sendMsg (uninterrupt [.eintr, .moved 9]) msg around) ∧
    ∃ (msg buf : Msg), msg.Sized ∧
      (recvMsg [.eintr, .moved 9] msg.wire buf).seen ≠
        (recvMsg (uninterrupt [.eintr, .moved 9]) msg.wire buf).seen := by
  refine ⟨⟨setJobReq (Msg.fill 0), fun _ => 255, ?_⟩,
    setJobReq (Msg.fill 0), Msg.fill 0, by decide +kernel, ?_⟩
  · decide +kernel
  · decide +kernel

end DistQueue
