import Mathlib.Data.List.TakeWhile
import Mathlib.Tactic.Linarith

/-!
# Flat memory, written and read by offset

The layout-level vocabulary: a block of memory is a list, `splice` overwrites
a stretch of it and `slice` reads one back. Everything a packed structure
needs is four facts — the block keeps its length, a field reads back what was
written to it, a field is blind to writes on either side of it, and a prefix
of the block only depends on what was written below its end.

The second half is C strings in fixed fields: `strncpy` as the standard has
it, zero fill included, and `cstr`, what a reader of the field sees. The one
fact the copies rest on is that a copy of a copy is the copy.
-/

namespace DistQueue.Lib

section Splice

variable {α : Type*}

/-- The `n` cells starting at `off`. -/
def slice (xs : List α) (off n : Nat) : List α := (xs.drop off).take n

/-- `xs` with the cells from `off` on overwritten by `ys`. -/
def splice (xs : List α) (off : Nat) (ys : List α) : List α :=
  xs.take off ++ ys ++ xs.drop (off + ys.length)

theorem length_splice {xs ys : List α} {off : Nat}
    (h : off + ys.length ≤ xs.length) :
    (splice xs off ys).length = xs.length := by
  simp only [splice, List.length_append, List.length_take, List.length_drop]
  omega

theorem length_slice {xs : List α} {off n : Nat} (h : off + n ≤ xs.length) :
    (slice xs off n).length = n := by
  simp only [slice, List.length_take, List.length_drop]
  omega

theorem slice_splice_self {xs ys : List α} {off : Nat}
    (h : off + ys.length ≤ xs.length) :
    slice (splice xs off ys) off ys.length = ys := by
  have hoff : (xs.take off).length = off := by
    rw [List.length_take]; omega
  simp only [slice, splice, List.append_assoc]
  rw [List.drop_append_of_le_length (by omega), List.drop_of_length_le (by omega)]
  simp

/-- A field ending where the write starts, or earlier, is not touched. -/
theorem slice_splice_before {xs ys : List α} {off off' n : Nat}
    (h : off + ys.length ≤ xs.length) (hn : off' + n ≤ off) :
    slice (splice xs off ys) off' n = slice xs off' n := by
  have hoff : (xs.take off).length = off := by
    rw [List.length_take]; omega
  simp only [slice, splice, List.append_assoc]
  rw [List.drop_append_of_le_length (by omega),
    List.take_append_of_le_length (by rw [List.length_drop]; omega),
    List.drop_take, List.take_take]
  congr 1
  omega

/-- A field starting where the write ends, or later, is not touched. -/
theorem slice_splice_after {xs ys : List α} {off off' n : Nat}
    (h : off + ys.length ≤ xs.length) (hn : off + ys.length ≤ off') :
    slice (splice xs off ys) off' n = slice xs off' n := by
  have hlen : (xs.take off ++ ys).length = off + ys.length := by
    rw [List.length_append, List.length_take]; omega
  simp only [slice, splice]
  rw [List.drop_append, List.drop_of_length_le (by omega), hlen, List.nil_append,
    List.drop_drop]
  congr 2
  omega

theorem getElem?_splice_after {xs ys : List α} {off i : Nat} (hoff : off ≤ xs.length)
    (hi : off + ys.length ≤ i) : (splice xs off ys)[i]? = xs[i]? := by
  have hlen : (xs.take off ++ ys).length = off + ys.length := by
    rw [List.length_append, List.length_take, Nat.min_eq_left hoff]
  rw [splice, List.getElem?_append_right (by omega), hlen, List.getElem?_drop]
  congr 1
  omega

/-- Reading inside a prefix that is itself a slice from the start. -/
theorem slice_take {xs : List α} {k off n : Nat} (h : off + n ≤ k) :
    slice (xs.take k) off n = slice xs off n := by
  simp only [slice]
  rw [List.drop_take, List.take_take]
  congr 1
  omega

/-- Two blocks that agree on a prefix agree on every field inside it. -/
theorem slice_eq_of_take_eq {xs ys : List α} {k off n : Nat}
    (h : xs.take k = ys.take k) (hk : off + n ≤ k) :
    slice xs off n = slice ys off n := by
  rw [← slice_take hk, h, slice_take hk]

theorem slice_append {xs : List α} {off n m : Nat} :
    slice xs off n ++ slice xs (off + n) m = slice xs off (n + m) := by
  simp only [slice]
  rw [← List.drop_drop, ← List.take_add]

theorem take_eq_slice {xs : List α} {n : Nat} : xs.take n = slice xs 0 n := by
  simp only [slice, List.drop_zero]

end Splice

/-! ## Strings in fixed fields -/

/-- What a reader sees of a field: the bytes before the first NUL. -/
def cstr (field : List UInt8) : List UInt8 := field.takeWhile (· != 0)

/-- `strncpy(dst, src, n)`: the bytes of `src` before its NUL, at most `n` of
them, the rest of the `n` bytes filled with NULs. -/
def strncpy (n : Nat) (src : List UInt8) : List UInt8 :=
  (cstr (src.take n)) ++ List.replicate (n - (cstr (src.take n)).length) 0

theorem cstr_length_le (field : List UInt8) : (cstr field).length ≤ field.length :=
  (List.takeWhile_sublist _).length_le

@[simp] theorem length_strncpy (n : Nat) (src : List UInt8) :
    (strncpy n src).length = n := by
  have h := cstr_length_le (src.take n)
  rw [List.length_take] at h
  simp only [strncpy, List.length_append, List.length_replicate]
  omega

theorem not_mem_cstr (field : List UInt8) : ∀ b ∈ cstr field, (b != 0) = true :=
  fun _ hb => by simpa using List.mem_takeWhile_imp hb

/-- A NUL-free string followed by NULs, or by nothing, reads as itself. -/
theorem cstr_append_replicate {s : List UInt8} (hs : ∀ b ∈ s, (b != 0) = true)
    (k : Nat) : cstr (s ++ List.replicate k 0) = s := by
  rw [cstr, List.takeWhile_append_of_pos hs]
  cases k with
  | zero => simp
  | succ k => simp [List.replicate_succ]

theorem cstr_of_nul_free {s : List UInt8} (hs : ∀ b ∈ s, (b != 0) = true) :
    cstr s = s := by
  have h := cstr_append_replicate hs 0
  simpa using h

@[simp] theorem cstr_strncpy (n : Nat) (src : List UInt8) :
    cstr (strncpy n src) = cstr (src.take n) :=
  cstr_append_replicate (not_mem_cstr _) _

/-- A field is read like its copy. -/
theorem cstr_strncpy_field {n : Nat} {field : List UInt8} (hlen : field.length = n) :
    cstr (strncpy n field) = cstr field := by
  rw [cstr_strncpy, List.take_of_length_le (Nat.le_of_eq hlen)]

/-- A copy of a copy is the copy. -/
theorem strncpy_strncpy (n : Nat) (src : List UInt8) :
    strncpy n (strncpy n src) = strncpy n src := by
  have hlen : (strncpy n src).take n = strncpy n src :=
    List.take_of_length_le (by simp)
  rw [strncpy.eq_def n (strncpy n src), hlen, cstr_strncpy]
  rfl

/-- A NUL-free string shorter than the field survives the copy. -/
theorem cstr_strncpy_of_lt {n : Nat} {s : List UInt8}
    (hs : ∀ b ∈ s, (b != 0) = true) (hn : s.length ≤ n) :
    cstr (strncpy n s) = s := by
  rw [cstr_strncpy, List.take_of_length_le hn, cstr_of_nul_free hs]

theorem cstr_length_lt {field : List UInt8} (hnul : 0 ∈ field) :
    (cstr field).length < field.length := by
  refine Nat.lt_of_le_of_ne (cstr_length_le field) fun hlen => ?_
  have hself := (List.takeWhile_prefix (l := field) (· != 0)).eq_of_length hlen
  have hall := List.takeWhile_eq_self_iff.mp hself 0 hnul
  simp at hall

theorem bne_of_nul_free {xs : List UInt8} (hnul : 0 ∉ xs) : ∀ b ∈ xs, (b != 0) = true :=
  fun b hb => by
    rw [bne_iff_ne]
    exact fun hzero => hnul (hzero ▸ hb)

theorem cstr_length_lt_iff {field : List UInt8} :
    (cstr field).length < field.length ↔ 0 ∈ field := by
  refine ⟨fun h => ?_, cstr_length_lt⟩
  by_contra hnul
  rw [cstr_of_nul_free (bne_of_nul_free hnul)] at h
  exact absurd h (Nat.lt_irrefl _)

theorem cstr_take (n : Nat) (src : List UInt8) : cstr (src.take n) = (cstr src).take n :=
  List.take_takeWhile.symm

/-- The copy is terminated if the string leaves room for its NUL. -/
theorem nul_mem_strncpy_iff {n : Nat} {src : List UInt8} :
    0 ∈ strncpy n src ↔ (cstr src).length < n := by
  rw [← cstr_length_lt_iff, cstr_strncpy, length_strncpy, cstr_take, List.length_take]
  omega

theorem nul_mem_strncpy_field {n : Nat} {field : List UInt8} (hlen : field.length = n) :
    0 ∈ strncpy n field ↔ 0 ∈ field := by
  rw [nul_mem_strncpy_iff, ← hlen, cstr_length_lt_iff]

theorem nul_mem_strncpy {n : Nat} {field : List UInt8} (hlen : field.length = n)
    (hnul : 0 ∈ field) : 0 ∈ strncpy n field := (nul_mem_strncpy_field hlen).mpr hnul

/-- Once the NUL is among the first `k` bytes, the bytes after them are not
looked at. -/
theorem cstr_take_of_nul {n k : Nat} {xs : List UInt8} (hkn : k ≤ n)
    (hnul : 0 ∈ xs.take k) : cstr (xs.take n) = cstr (xs.take k) := by
  have hsplit : xs.take n = xs.take k ++ (xs.drop k).take (n - k) := by
    rw [← List.take_add, Nat.add_sub_cancel' hkn]
  have hstop : (cstr (xs.take k)).length ≠ (xs.take k).length :=
    Nat.ne_of_lt (cstr_length_lt hnul)
  rw [hsplit, cstr, List.takeWhile_append]
  exact if_neg hstop

/-- A string that ends in the field is read without what lies behind it. -/
theorem cstr_append_of_nul {xs : List UInt8} (hnul : 0 ∈ xs) (ys : List UInt8) :
    cstr (xs ++ ys) = cstr xs := by
  have h := @cstr_take_of_nul (xs.length + ys.length) xs.length (xs ++ ys)
    (Nat.le_add_right xs.length ys.length) (by rw [List.take_left]; exact hnul)
  rw [List.take_left, ← List.length_append, List.take_length] at h
  exact h

/-- A string that does not end in the field goes on behind it. -/
theorem cstr_append_of_nul_free {xs : List UInt8} (hnul : 0 ∉ xs) (ys : List UInt8) :
    cstr (xs ++ ys) = xs ++ cstr ys := by
  rw [cstr, List.takeWhile_append_of_pos (bne_of_nul_free hnul)]
  rfl

/-- The copy only depends on the bytes up to and including the first NUL. -/
theorem strncpy_congr {n k : Nat} {xs ys : List UInt8} (h : xs.take k = ys.take k)
    (hk : n ≤ k ∨ 0 ∈ xs.take k) : strncpy n xs = strncpy n ys := by
  have hcstr : cstr (xs.take n) = cstr (ys.take n) := by
    rcases Nat.le_total n k with hnk | hkn
    · rw [show xs.take n = (xs.take k).take n by rw [List.take_take, Nat.min_eq_left hnk],
        h, List.take_take, Nat.min_eq_left hnk]
    · rcases hk with hk | hnul
      · rw [Nat.le_antisymm hkn hk] at h
        rw [h]
      · rw [cstr_take_of_nul hkn hnul, cstr_take_of_nul hkn (h ▸ hnul), h]
  simp only [strncpy, hcstr]

/-- Up to the first NUL and on it, the copy has the byte of the field. -/
theorem getElem?_strncpy {n j : Nat} {xs : List UInt8} (hlen : xs.length = n) (hj : j < n)
    (hnul : 0 ∉ xs.take j) : (strncpy n xs)[j]? = xs[j]? := by
  have hjlen : j < xs.length := by omega
  have hsplit : xs = xs.take j ++ xs[j] :: xs.drop (j + 1) := by simp
  have hcstr : cstr xs = xs.take j ++ cstr (xs[j] :: xs.drop (j + 1)) := by
    conv_lhs => rw [hsplit]
    exact cstr_append_of_nul_free hnul _
  have htake : (xs.take j).length = j := List.length_take_of_le (by omega)
  rw [strncpy, List.take_of_length_le (Nat.le_of_eq hlen), hcstr, List.append_assoc,
    List.getElem?_append_right (Nat.le_of_eq htake), htake, Nat.sub_self,
    List.getElem?_eq_getElem hjlen]
  by_cases hx : xs[j] = 0
  · have hnil : cstr (xs[j] :: xs.drop (j + 1)) = [] := by simp [cstr, hx]
    rw [hnil, List.append_nil, List.nil_append, htake, hx, List.getElem?_replicate,
      if_pos (by omega)]
  · have hcons : cstr (xs[j] :: xs.drop (j + 1)) = xs[j] :: cstr (xs.drop (j + 1)) :=
      List.takeWhile_cons_of_pos (by simpa using hx)
    rw [hcons]
    rfl

/-! ## Strings read through a pointer -/

/-- A string that is handed over by its address: the field it starts in, and
what memory holds behind that. -/
structure StrRead where
  field : List UInt8
  behind : List UInt8
  deriving DecidableEq, Repr

namespace StrRead

variable {r : StrRead}

/-- What is read before a NUL comes. -/
def string (r : StrRead) : List UInt8 := cstr (r.field ++ r.behind)

/-- The NUL that ends the string is a byte of the field. -/
def Ends (r : StrRead) : Prop := r.string.length < r.field.length

instance (r : StrRead) : Decidable r.Ends := inferInstanceAs (Decidable (_ < _))

theorem ends_iff : r.Ends ↔ 0 ∈ r.field := by
  unfold Ends string
  by_cases hnul : 0 ∈ r.field
  · rw [cstr_append_of_nul hnul, cstr_length_lt_iff]
  · rw [cstr_append_of_nul_free hnul, List.length_append]
    exact ⟨fun h => absurd h (by omega), fun h => absurd h hnul⟩

theorem string_of_ends (h : r.Ends) : r.string = cstr r.field :=
  cstr_append_of_nul (ends_iff.mp h) r.behind

end StrRead

end DistQueue.Lib
