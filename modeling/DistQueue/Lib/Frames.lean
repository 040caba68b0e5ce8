import Mathlib.Data.List.Basic

/-!
# Frames on a stream

Two ends of a reliable stream that carries frames back to back. The writer may
be in the middle of a frame and the reader in the middle of an earlier one, so
the bytes of the frames still to be taken are spread over three places: with
the reader, in the stream, and with the writer. A reader that takes no more
than the rest of its frame ends exactly on the frame's last byte.
-/

namespace DistQueue.Lib

variable {M B : Type*} {enc : M → List B} {m : M} {msgs rest : List M}
variable {got chan pend p : List B}

/-- `msgs` are the frames not taken yet: the reader has `got` of the first,
`chan` is in the stream, and the writer still has `pend` to put in. -/
structure Lane (enc : M → List B) (msgs : List M) (got chan pend : List B) : Prop where
  bytes : got ++ (chan ++ pend) = msgs.flatMap enc
  cut : ∀ m ∈ msgs.head?, got.length < (enc m).length

namespace Lane

theorem empty : Lane enc [] [] [] [] := ⟨rfl, fun _ hm => by simp at hm⟩

theorem of_nil (h : Lane enc [] got chan pend) : got = [] ∧ chan = [] ∧ pend = [] := by
  simpa using h.bytes

/-- With something in the stream there is a frame it belongs to. -/
theorem exists_cons (h : Lane enc msgs got chan pend) (hne : chan ≠ []) :
    ∃ m rest, msgs = m :: rest := by
  cases msgs with
  | nil => exact absurd h.of_nil.2.1 hne
  | cons m rest => exact ⟨m, rest, rfl⟩

/-! ## The writer -/

/-- A frame is begun once the one before it is all in. -/
theorem send (h : Lane enc msgs got chan []) (hm : enc m ≠ []) :
    Lane enc (msgs ++ [m]) got chan (enc m) := by
  refine ⟨?_, ?_⟩
  · rw [List.flatMap_append, ← h.bytes]
    simp
  · intro m' hm'
    cases msgs with
    | nil =>
        obtain ⟨rfl, -, -⟩ := h.of_nil
        obtain rfl : m = m' := by simpa using hm'
        exact List.length_pos_iff.mpr hm
    | cons m₀ rest => exact h.cut m' (by simpa using hm')

theorem push (h : Lane enc msgs got chan (p ++ pend)) :
    Lane enc msgs got (chan ++ p) pend :=
  ⟨by rw [← h.bytes, List.append_assoc], h.cut⟩

/-- Of a frame that is all in, what the reader has not got is in the stream. -/
theorem chan_ne_nil (h : Lane enc (m :: rest) got chan []) : chan ≠ [] := by
  intro hnil
  have hbytes := congrArg List.length h.bytes
  have hcut := h.cut m rfl
  rw [hnil, List.flatMap_cons, List.length_append, List.length_append] at hbytes
  simp at hbytes
  omega

/-! ## The reader -/

theorem prefix_of_le (h : Lane enc (m :: rest) got (p ++ chan) pend)
    (hle : (got ++ p).length ≤ (enc m).length) : got ++ p <+: enc m := by
  have hbytes : (got ++ p) ++ (chan ++ pend) = enc m ++ rest.flatMap enc := by
    rw [← List.flatMap_cons, ← h.bytes]
    simp
  exact List.prefix_of_prefix_length_le ⟨_, hbytes⟩ (List.prefix_append _ _) hle

theorem pull (h : Lane enc (m :: rest) got (p ++ chan) pend)
    (hlt : (got ++ p).length < (enc m).length) :
    Lane enc (m :: rest) (got ++ p) chan pend := by
  refine ⟨by rw [← h.bytes]; simp, ?_⟩
  intro m' hm'
  obtain rfl : m = m' := by simpa using hm'
  exact hlt

/-- The last byte of a frame. What is left of the stream starts with the next
one. -/
theorem pop (h : Lane enc (m :: rest) got (p ++ chan) pend) (henc : ∀ m, enc m ≠ [])
    (hlen : (got ++ p).length = (enc m).length) :
    got ++ p = enc m ∧ Lane enc rest [] chan pend := by
  have hframe : got ++ p = enc m :=
    (h.prefix_of_le (Nat.le_of_eq hlen)).eq_of_length hlen
  refine ⟨hframe, ?_, ?_⟩
  · have hbytes := h.bytes
    rw [List.flatMap_cons, ← hframe] at hbytes
    simpa using hbytes
  · intro m' _
    exact List.length_pos_iff.mpr (henc m')

end Lane

end DistQueue.Lib
