import DistQueue.Proto.Transfer

/-!
# `recvMsg` and the end of its buffer

The payload is as long as the header says, less `sizeof(Header)` in `size_t`
arithmetic, and nothing looks at the header before. A size below
`sizeof(Header)` makes that nearly `2 ^ 64`, so such a message never ends, and
a size above `sizeof(Msg)` does not end inside the buffer. For either it is up
to the peer how far past the end of `*msg` it writes.
-/

namespace DistQueue

open DistQueue.Lib

/-- The size in the header that a stream starts with. -/
def announced (stream : List UInt8) : Nat := (ntohs (load16 (stream.take 2))).toNat

/-- `recv` cuts the stream anywhere and may end in a closed socket or an error. -/
def Uninterrupted (sched : List IoResult) : Prop := ∀ r ∈ sched, r ≠ .eintr

instance (sched : List IoResult) : Decidable (Uninterrupted sched) :=
  inferInstanceAs (Decidable (∀ r ∈ sched, r ≠ .eintr))

/-- The bytes that the calls up to the first failure hand over, where the peer
has as many and no message ends: `got` before them, no call going past the
header it is in. -/
def handed : List IoResult → (got : Nat) → Nat
  | .moved (n + 1) :: sched, got =>
      handed sched (got + if got < sizeofHeader then min (n + 1) (sizeofHeader - got) else n + 1)
  | _, got => got

/-- Nothing is stored outside of `*msg`, and 1 is the answer to a whole message. -/
structure KeepsToBuffer (sched : List IoResult) (stream : List UInt8) (buf : Msg) : Prop where
  inside : recvMsg sched stream buf ≠ .overflow
  whole : ∀ buf' rest, recvMsg sched stream buf = .ret 1 buf' rest →
    sizeofHeader ≤ announced stream ∧
      ∃ got, stream = got ++ rest ∧ got.length = announced stream

/-- What the loop wants in all, by its own arithmetic. -/
def demanded (stream : List UInt8) : Nat :=
  if announced stream < sizeofHeader then announced stream + sizeT else announced stream

theorem le_handed : ∀ {sched : List IoResult} {got : Nat}, got ≤ handed sched got := by
  intro sched
  induction sched with
  | nil => intro got; exact Nat.le_refl _
  | cons r sched ih =>
      intro got
      rcases r with (_ | n) | _ | _
      · exact Nat.le_refl _
      · exact Nat.le_trans (Nat.le_add_right _ _) ih
      · exact Nat.le_refl _
      · exact Nat.le_refl _

theorem sizeofHeader_le_demanded (stream : List UInt8) : sizeofHeader ≤ demanded stream := by
  unfold demanded sizeT
  have hheader : sizeofHeader = 5 := rfl
  split <;> omega

theorem getSize8_over_take {buf : Msg} {stream : List UInt8} {n : Nat} (hn : 2 ≤ n)
    (hlen : n ≤ stream.length) (hin : n ≤ sizeofMsg) :
    (getSize8 (buf.over (stream.take n))).toNat = announced stream := by
  have htake : (stream.take n).length = n := by rw [List.length_take, Nat.min_eq_left hlen]
  have hget : (buf.over (stream.take n)).get .sz8 = stream.take 2 := by
    rw [Msg.get, Msg.bytes_over buf (by omega)]
    show slice _ 0 2 = _
    rw [← take_eq_slice, List.take_append_of_le_length (by omega), List.take_take,
      Nat.min_eq_left hn]
  rw [getSize8, Msg.get16, hget, announced]

/-- The switch to the payload asks for what `demanded` says. -/
theorem demanded_payload {buf : Msg} {stream : List UInt8} (hlen : sizeofHeader ≤ stream.length) :
    ((getSize8 (buf.over (stream.take sizeofHeader))).toNat + sizeT - sizeofHeader) % sizeT =
      demanded stream - sizeofHeader := by
  have hlt : announced stream < 2 ^ 16 := (ntohs (load16 (stream.take 2))).toNat_lt
  rw [getSize8_over_take (by decide) hlen (by decide)]
  have hheader : sizeofHeader = 5 := rfl
  unfold demanded sizeT
  split
  · rw [Nat.mod_eq_of_lt (by omega)]
  · omega

section Loop

variable {buf : Msg} {stream : List UInt8}

theorem store_take {got k : Nat} (hk : k ≠ 0) (hlen : got + k ≤ stream.length)
    (hin : got + k ≤ sizeofMsg) (hw : k ≤ wanted (demanded stream) got) :
    (recvAt buf (demanded stream) (stream.take got)).store ((stream.drop got).take k) =
      some (recvAt buf (demanded stream) (stream.take (got + k))) := by
  have hgot : (stream.take got).length = got := by
    rw [List.length_take, Nat.min_eq_left (by omega)]
  have hchunk : ((stream.drop got).take k).length = k := by
    rw [List.length_take, List.length_drop]
    omega
  have hsplit : stream.take got ++ (stream.drop got).take k = stream.take (got + k) :=
    List.take_add.symm
  rw [← hsplit]
  refine RecvSt.store_at buf (sizeofHeader_le_demanded stream) ?_ ?_ ?_ fun hswitch => ?_
  · rw [hgot, hchunk]; exact hin
  · exact List.length_pos_iff.mp (by omega)
  · rw [hgot, hchunk]; exact hw
  · rw [hgot, hchunk] at hswitch
    rw [hsplit, hswitch]
    exact demanded_payload (by omega)

theorem store_past {got k : Nat} (hgot : got ≤ stream.length) (hlen : got + k ≤ stream.length)
    (hout : sizeofMsg < got + k) :
    (recvAt buf (demanded stream) (stream.take got)).store ((stream.drop got).take k) =
      none := by
  refine dif_neg ?_
  rintro ⟨-, hfit⟩
  rw [List.length_take, List.length_drop] at hfit
  simp only [recvAt, List.length_take, Int.toNat_natCast] at hfit
  omega

/-- How the loop ends: past the end of `*msg` exactly if the header, the peer and
the calls, which have `n` bytes, all have more than it holds, and with 1 at the
end of the message. -/
structure Outcome (stream : List UInt8) (n : Nat) (out : RecvOut) : Prop where
  overflow : out = .overflow ↔
    sizeofMsg < demanded stream ∧ sizeofMsg < stream.length ∧ sizeofMsg < n
  whole : ∀ buf' rest, out = .ret 1 buf' rest →
    demanded stream ≤ sizeofMsg ∧ demanded stream ≤ stream.length ∧
      rest = stream.drop (demanded stream)

namespace Outcome

variable {n n' : Nat} {out : RecvOut}

theorem done (hin : demanded stream ≤ sizeofMsg) (hlen : demanded stream ≤ stream.length) :
    Outcome stream n (.ret 1 buf (stream.drop (demanded stream))) where
  overflow := ⟨fun h => (by cases h), fun h => absurd h.1 (Nat.not_lt.mpr hin)⟩
  whole := fun buf' rest h => by
    injection h with _ _ hrest
    exact ⟨hin, hlen, hrest.symm⟩

/-- Nothing more comes, from the peer or from the calls. -/
theorem stopped (hover : out ≠ .overflow) (hone : ∀ buf' rest, out ≠ .ret 1 buf' rest)
    (hfew : ¬ (sizeofMsg < stream.length ∧ sizeofMsg < n)) : Outcome stream n out where
  overflow := ⟨fun h => absurd h hover, fun h => absurd h.2 hfew⟩
  whole := fun buf' rest h => absurd h (hone buf' rest)

theorem past (hdemand : sizeofMsg < demanded stream) (hlen : sizeofMsg < stream.length)
    (hn : sizeofMsg < n) : Outcome stream n .overflow where
  overflow := ⟨fun _ => ⟨hdemand, hlen, hn⟩, fun _ => rfl⟩
  whole := fun buf' rest h => by cases h

/-- How many bytes the calls have matters only where the rest is there. -/
theorem congr (h : Outcome stream n out)
    (hn : sizeofMsg < demanded stream → sizeofMsg < stream.length → n = n') :
    Outcome stream n' out where
  overflow := by
    refine h.overflow.trans ⟨fun ⟨hd, hs, hh⟩ => ?_, fun ⟨hd, hs, hh⟩ => ?_⟩
    · exact ⟨hd, hs, hn hd hs ▸ hh⟩
    · exact ⟨hd, hs, hn hd hs ▸ hh⟩
  whole := h.whole

end Outcome

theorem toRecv_take {got : Nat} (hgot : got ≤ stream.length) :
    (recvAt buf (demanded stream) (stream.take got)).toRecv = wanted (demanded stream) got := by
  show wanted _ (stream.take got).length = _
  rw [List.length_take, Nat.min_eq_left hgot]

theorem eq_demanded {got : Nat} (hle : got ≤ demanded stream)
    (hz : wanted (demanded stream) got = 0) : got = demanded stream := by
  unfold wanted at hz
  split at hz <;> omega

theorem recvLoop_outcome : ∀ {sched : List IoResult} {got : Nat}, Uninterrupted sched →
    got ≤ stream.length → got ≤ demanded stream → got ≤ sizeofMsg →
    Outcome stream (handed sched got)
      (recvLoop sched (stream.drop got) (recvAt buf (demanded stream) (stream.take got))) := by
  intro sched
  have hheader := sizeofHeader_le_demanded stream
  have hfive : sizeofHeader = 5 := rfl
  induction sched with
  | nil =>
      intro got _ hgot hle hin
      by_cases hz : wanted (demanded stream) got = 0
      · obtain rfl := eq_demanded hle hz
        rw [recvLoop_zero ((toRecv_take hgot).trans hz)]
        exact .done hin hgot
      · rw [recvLoop_nil (by rw [toRecv_take hgot]; exact hz)]
        exact .stopped RecvOut.noConfusion (fun _ _ => RecvOut.noConfusion)
          fun h => absurd h.2 (Nat.not_lt.mpr hin)
  | cons r sched ih =>
      intro got hu hgot hle hin
      have hrest : Uninterrupted sched := fun r hr => hu r (List.mem_cons_of_mem _ hr)
      by_cases hz : wanted (demanded stream) got = 0
      · obtain rfl := eq_demanded hle hz
        rw [recvLoop_zero ((toRecv_take hgot).trans hz)]
        exact .done hin hgot
      have hto : (recvAt buf (demanded stream) (stream.take got)).toRecv ≠ 0 := by
        rw [toRecv_take hgot]
        exact hz
      have hfails : ∀ code : Int, code ≠ 1 → ∀ {b rest}, ∀ buf' rest',
          RecvOut.ret code b rest ≠ .ret 1 buf' rest' := by
        intro code hcode b rest buf' rest' h
        injection h with h
        exact hcode h
      cases r with
      | eintr => exact absurd rfl (hu .eintr (List.mem_cons_self ..))
      | error =>
          rw [recvLoop_error hto]
          exact .stopped RecvOut.noConfusion (hfails (-1) (by decide))
            fun h => absurd h.2 (Nat.not_lt.mpr hin)
      | moved n =>
          cases n with
          | zero =>
              rw [recvLoop_moved_zero hto]
              exact .stopped RecvOut.noConfusion (hfails 0 (by decide))
                fun h => absurd h.2 (Nat.not_lt.mpr hin)
          | succ n =>
              obtain ⟨k, hk⟩ : ∃ k, min (n + 1) (min (recvAt buf (demanded stream)
                  (stream.take got)).toRecv (stream.drop got).length) = k := ⟨_, rfl⟩
              rw [recvLoop_moved hto hk]
              rw [toRecv_take hgot, List.length_drop] at hk
              have hwanted : wanted (demanded stream) got =
                  if got < sizeofHeader then sizeofHeader - got else demanded stream - got := rfl
              by_cases hk0 : k = 0
              · rw [if_pos hk0]
                exact .stopped RecvOut.noConfusion (hfails 0 (by decide))
                  fun h => absurd h.1 (by omega)
              rw [if_neg hk0]
              by_cases hout : sizeofMsg < got + k
              · rw [store_past hgot (by omega) hout]
                have hmsg : 5 < sizeofMsg := by decide
                have hpay : ¬ got < sizeofHeader := by
                  intro hlt
                  rw [if_pos hlt] at hwanted
                  omega
                rw [if_neg hpay] at hwanted
                have hhanded : got + (n + 1) ≤ handed (.moved (n + 1) :: sched) got := by
                  have := @le_handed sched (got + (n + 1))
                  rw [handed, if_neg hpay]
                  exact this
                exact .past (by omega) (by omega) (by omega)
              · rw [store_take hk0 (by omega) (by omega) (by omega), List.drop_drop]
                have hle' : got + k ≤ demanded stream := by
                  split at hwanted <;> omega
                refine (ih hrest (by omega) hle' (by omega)).congr fun hd hs => ?_
                -- With more than the buffer holds on either side, the call gets all it may.
                rw [handed]
                congr 2
                split at hwanted
                · next hlt => rw [if_pos hlt]; omega
                · next hge => rw [if_neg hge]; omega

end Loop

theorem demanded_le_iff {stream : List UInt8} : demanded stream ≤ sizeofMsg ↔
    sizeofHeader ≤ announced stream ∧ announced stream ≤ sizeofMsg := by
  have hsmall : sizeofMsg < sizeT := by decide
  unfold demanded
  split <;> omega

theorem recvMsg_outcome {sched : List IoResult} (hu : Uninterrupted sched)
    (stream : List UInt8) (buf : Msg) :
    Outcome stream (handed sched 0) (recvMsg sched stream buf) := by
  have h := @recvLoop_outcome buf stream sched 0 hu (Nat.zero_le _) (Nat.zero_le _)
    (Nat.zero_le _)
  rw [List.take_zero, recvAt_nil, List.drop_zero] at h
  exact h

/-- Every way `recv` cuts a stream up, and every stream. -/
theorem recvMsg_keeps_to_buffer (sched : List IoResult) (stream : List UInt8) (buf : Msg)
    (hu : Uninterrupted sched) :
    KeepsToBuffer sched stream buf ↔
      (sizeofHeader ≤ announced stream ∧ announced stream ≤ sizeofMsg) ∨
        stream.length ≤ sizeofMsg ∨ handed sched 0 ≤ sizeofMsg := by
  obtain ⟨hover, hret⟩ := recvMsg_outcome hu stream buf
  rw [← demanded_le_iff]
  constructor
  · intro h
    by_contra hc
    exact h.inside (hover.mpr ⟨by omega, by omega, by omega⟩)
  · intro h
    refine ⟨fun ho => ?_, fun buf' rest hr => ?_⟩
    · have hbig := hover.mp ho
      omega
    · obtain ⟨hd, hlen, hrest⟩ := hret buf' rest hr
      have hsized := demanded_le_iff.mp hd
      have hsame : demanded stream = announced stream := if_neg (by omega)
      refine ⟨hsized.1, stream.take (announced stream), ?_, ?_⟩
      · rw [hrest, hsame, List.take_append_drop]
      · rw [List.length_take, Nat.min_eq_left (by omega)]

/-- A JOB_REQ in two pieces, with more behind it. -/
theorem recvMsg_keeps_to_buffer_jobReq :
    KeepsToBuffer [.moved 3, .moved 9] ((setJobReq (Msg.fill 0)).wire ++ [1, 2, 3])
      (Msg.fill 0) :=
  (recvMsg_keeps_to_buffer _ _ _ (by decide)).mpr (.inl (by decide +kernel))

/-- The peer announces 0 bytes and sends more than a message has. -/
theorem recvMsg_past_end :
    ∃ sched stream buf, Uninterrupted sched ∧ ¬ KeepsToBuffer sched stream buf := by
  refine ⟨[.moved 5, .moved sizeofMsg], List.replicate (sizeofMsg + 1) 0, Msg.fill 0, by decide,
    fun h => h.inside ?_⟩
  exact (recvMsg_outcome (by decide) _ _).overflow.mpr (by decide +kernel)

end DistQueue
