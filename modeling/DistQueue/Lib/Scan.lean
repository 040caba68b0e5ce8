import DistQueue.Lib.Words

/-!
# Reading characters as they come

What a formatted read makes of the characters that are still to come: it skips
separators, takes a word, and leaves the separator that ended it where it is. At
the end of the input it takes nothing. The other way to read is by lines.
-/

namespace DistQueue.Lib

variable {α : Type*} (p : α → Bool)

/-- The next word, empty at the end of the input, and what is left. -/
def scanWord (xs : List α) : List α × List α :=
  ((xs.dropWhile p).takeWhile fun a => !p a, (xs.dropWhile p).dropWhile fun a => !p a)

/-- The next line with the character that ends it, and what is left. -/
def scanLine : List α → Option (List α × List α)
  | [] => none
  | x :: xs =>
      if p x then some ([x], xs)
      else
        match scanLine xs with
        | none => some ([x], [])
        | some (line, rest) => some (x :: line, rest)

/-- `w` is the first word of `xs` and `rest` is what follows it. -/
structure Scans (xs w rest : List α) : Prop where
  split : ∃ sp, (∀ a ∈ sp, p a = true) ∧ xs = sp ++ (w ++ rest)
  free : ∀ a ∈ w, p a = false
  ended : ∀ a ∈ rest.head?, p a = true
  found : w = [] → rest = []

/-- `line` is the first line of `xs`, its end included unless the input is at
its end. -/
structure ScansLine (xs line rest : List α) : Prop where
  split : xs = line ++ rest
  line : (∃ body x, (∀ a ∈ body, p a = false) ∧ p x = true ∧ line = body ++ [x]) ∨
    (∀ a ∈ line, p a = false) ∧ line ≠ [] ∧ rest = []

variable {p} {xs ys w rest line : List α} {x : α}

theorem scanWord_append_sep {sp : List α} (hsp : ∀ a ∈ sp, p a = true) :
    scanWord p (sp ++ xs) = scanWord p xs := by
  rw [scanWord, scanWord, List.dropWhile_append_of_pos hsp]

theorem scanWord_word (hw : ∀ a ∈ w, p a = false) (hrest : ∀ a ∈ rest.head?, p a = true)
    (hne : w ≠ []) : scanWord p (w ++ rest) = (w, rest) := by
  have hdrop : (w ++ rest).dropWhile p = w ++ rest := by
    obtain ⟨a, w, rfl⟩ := List.exists_cons_of_ne_nil hne
    rw [List.cons_append, List.dropWhile_cons_of_neg (by simp [hw a List.mem_cons_self])]
  have hpos : ∀ a ∈ w, (!p a) = true := fun a ha => by simp [hw a ha]
  rw [scanWord, hdrop, List.takeWhile_append_of_pos hpos, List.dropWhile_append_of_pos hpos]
  cases rest with
  | nil => simp
  | cons a rest =>
      have ha : p a = true := hrest a rfl
      rw [List.takeWhile_cons_of_neg (by simp [ha]), List.dropWhile_cons_of_neg (by simp [ha]),
        List.append_nil]

theorem scans_scanWord (xs : List α) : Scans p xs (scanWord p xs).1 (scanWord p xs).2 where
  split :=
    ⟨xs.takeWhile p, fun a ha => List.mem_takeWhile_imp ha, by
      rw [scanWord, List.takeWhile_append_dropWhile, List.takeWhile_append_dropWhile]⟩
  free := fun a ha => by simpa using List.mem_takeWhile_imp ha
  ended := fun a ha => by
    have hhead := List.head?_dropWhile_not (fun a => !p a) (xs.dropWhile p)
    rw [show ((xs.dropWhile p).dropWhile fun a => !p a).head? = some a from ha] at hhead
    simpa using hhead
  found := fun h => by
    rw [scanWord] at h ⊢
    cases hdrop : xs.dropWhile p with
    | nil => rfl
    | cons y ys =>
        have hy : p y = false := head_of_dropWhile hdrop
        rw [hdrop, List.takeWhile_cons_of_pos (by simp [hy])] at h
        cases h

/-- The scan takes the first word, whatever stands around it. -/
theorem words_append_sep {sp : List α} (hsp : ∀ a ∈ sp, p a = true) :
    words p (sp ++ xs) = words p xs := by
  rw [← words_dropWhile, List.dropWhile_append_of_pos hsp, words_dropWhile]

/-- A separator parts the words in front of it from those behind it. -/
theorem words_append_cons (xs ys : List α) (hx : p x = true) :
    words p (xs ++ x :: ys) = words p xs ++ words p ys := by
  rw [words, List.splitOnP_append_cons xs ys hx, List.filter_append, words, words]

/-- Something is taken off, as long as there is something. -/
theorem length_scanWord (xs : List α) : (scanWord p xs).2.length ≤ xs.length - 1 := by
  obtain ⟨⟨sp, -, hsplit⟩, -, -, hfound⟩ := scans_scanWord (p := p) xs
  have hlength := congrArg List.length hsplit
  rw [List.length_append, List.length_append] at hlength
  by_cases hne : (scanWord p xs).1 = []
  · rw [hfound hne]
    exact Nat.zero_le _
  · have := List.length_pos_iff.mpr hne
    omega

/-- The words of the input are the one that is scanned and those behind it,
whether or not the separator between them is taken too. -/
theorem words_scanWord (xs : List α) :
    (words p xs).headD [] = (scanWord p xs).1 ∧ (words p xs).tail = words p (scanWord p xs).2 ∧
      words p (scanWord p xs).2.tail = words p (scanWord p xs).2 := by
  obtain ⟨⟨sp, hsp, hsplit⟩, hfree, hended, hfound⟩ := scans_scanWord (p := p) xs
  rw [(congrArg (words p) hsplit).trans (words_append_sep hsp)]
  generalize (scanWord p xs).1 = w at hfree hfound
  generalize (scanWord p xs).2 = rest at hended hfound
  by_cases hne : w = []
  · rw [hne, hfound hne]
    exact ⟨rfl, rfl, rfl⟩
  · cases rest with
    | nil =>
        rw [List.append_nil, words_word hfree hne]
        exact ⟨rfl, rfl, rfl⟩
    | cons a rest =>
        have ha : p a = true := hended a rfl
        rw [words_word_append hfree hne ha, words_cons_sep ha]
        exact ⟨rfl, rfl, rfl⟩

theorem scanLine_eq_none : scanLine p xs = none ↔ xs = [] := by
  cases xs with
  | nil => exact ⟨fun _ => rfl, fun _ => rfl⟩
  | cons x xs =>
      rw [scanLine]
      split
      · simp
      · split <;> simp

theorem scanLine_line (hline : ∀ a ∈ line, p a = false) (hx : p x = true) :
    scanLine p (line ++ x :: rest) = some (line ++ [x], rest) := by
  induction line with
  | nil => rw [List.nil_append, scanLine, if_pos hx, List.nil_append]
  | cons a line ih =>
      have ha : ¬ p a = true := by simp [hline a List.mem_cons_self]
      rw [List.cons_append, scanLine, if_neg ha, ih fun b hb => hline b (List.mem_cons_of_mem _ hb)]
      rfl

theorem scanLine_last (hline : ∀ a ∈ line, p a = false) (hne : line ≠ []) :
    scanLine p line = some (line, []) := by
  induction line with
  | nil => exact absurd rfl hne
  | cons a line ih =>
      have ha : ¬ p a = true := by simp [hline a List.mem_cons_self]
      rw [scanLine, if_neg ha]
      cases line with
      | nil => rfl
      | cons b line =>
          rw [ih (fun c hc => hline c (List.mem_cons_of_mem _ hc)) (List.cons_ne_nil _ _)]

theorem scanLine_eq_some_iff : scanLine p xs = some (line, rest) ↔ ScansLine p xs line rest := by
  constructor
  · intro h
    induction xs generalizing line rest with
    | nil => cases h
    | cons x xs ih =>
        rw [scanLine] at h
        split at h
        · next hx =>
            injection h with h
            injection h with hline hrest
            subst hline hrest
            exact ⟨rfl, .inl ⟨[], x, fun _ ha => (by cases ha), hx, rfl⟩⟩
        · next hx =>
            have hx' : p x = false := by simpa using hx
            have hcons : ∀ {body : List α}, (∀ a ∈ body, p a = false) →
                ∀ a ∈ x :: body, p a = false := fun hbody a ha => by
              rcases List.mem_cons.mp ha with rfl | ha
              · exact hx'
              · exact hbody a ha
            split at h
            · next hnone =>
                injection h with h
                injection h with hline hrest
                subst hline hrest
                rw [scanLine_eq_none.mp hnone]
                exact ⟨rfl, .inr ⟨hcons fun _ ha => (by cases ha), List.cons_ne_nil _ _, rfl⟩⟩
            · next line' rest' hsome =>
                injection h with h
                injection h with hline hrest
                subst hline hrest
                obtain ⟨hsplit, hline⟩ := ih hsome
                refine ⟨by rw [hsplit, List.cons_append], ?_⟩
                rcases hline with ⟨body, y, hbody, hy, rfl⟩ | ⟨hfree, -, hrest⟩
                · exact .inl ⟨x :: body, y, hcons hbody, hy, rfl⟩
                · exact .inr ⟨hcons hfree, List.cons_ne_nil _ _, hrest⟩
  · rintro ⟨rfl, ⟨body, x, hbody, hx, rfl⟩ | ⟨hfree, hne, rfl⟩⟩
    · rw [List.append_assoc, List.singleton_append]
      exact scanLine_line hbody hx
    · rw [List.append_nil]
      exact scanLine_last hfree hne

end DistQueue.Lib
