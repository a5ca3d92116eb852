import TextHygiene.Tidy

/-! Lines of a byte string. A byte string is its lines, each but the last ended by a line feed, and
it ends in exactly one line feed when all of its lines are ended and the last of them is not empty,
or is the only one. -/

namespace TextHygiene.Bytes

/-! ## Parts between separators -/

theorem split_cons_of_ne {separator b : UInt8} (h : b ≠ separator) (rest : Bytes) :
    ∃ part parts, split separator rest = part :: parts ∧
      split separator (b :: rest) = (b :: part) :: parts := by
  cases hs : split separator rest with
  | nil => exact absurd hs (split_ne_nil separator rest)
  | cons part parts => exact ⟨part, parts, rfl, by simp [split, h, hs]⟩

theorem split_append_cons (separator : UInt8) (a b : Bytes) :
    split separator (a ++ separator :: b) = split separator a ++ split separator b := by
  induction a with
  | nil => simp [split]
  | cons x rest ih =>
    by_cases h : x = separator
    · simp [split, h, ih]
    · obtain ⟨part, parts, hrest, hcons⟩ := split_cons_of_ne h rest
      rw [hcons, List.cons_append, split, if_neg h, ih, hrest]
      rfl

theorem split_of_notMem {separator : UInt8} {bs : Bytes} (h : separator ∉ bs) :
    split separator bs = [bs] := by
  induction bs with
  | nil => rfl
  | cons b rest ih =>
    have hb : b ≠ separator := (List.ne_of_not_mem_cons h).symm
    simp [split, hb, ih (List.not_mem_of_not_mem_cons h)]

theorem notMem_of_mem_split {separator : UInt8} {bs part : Bytes}
    (h : part ∈ split separator bs) : separator ∉ part := by
  induction bs generalizing part with
  | nil =>
    obtain rfl := List.mem_singleton.mp h
    exact List.not_mem_nil
  | cons b rest ih =>
    by_cases hb : b = separator
    · rw [split, if_pos hb] at h
      rcases List.mem_cons.mp h with rfl | h
      · exact List.not_mem_nil
      · exact ih h
    · obtain ⟨first, parts, hrest, hcons⟩ := split_cons_of_ne hb rest
      rw [hcons] at h
      rw [hrest] at ih
      rcases List.mem_cons.mp h with rfl | h
      · exact List.not_mem_cons_of_ne_of_not_mem (Ne.symm hb) (ih List.mem_cons_self)
      · exact ih (List.mem_cons_of_mem _ h)

/-! ## Lines -/

theorem lines_of_notMem {line : Bytes} (h : Byte.lineFeed ∉ line) : lines line = [line] :=
  split_of_notMem h

theorem lines_append_cons {line : Bytes} (h : Byte.lineFeed ∉ line) (rest : Bytes) :
    lines (line ++ Byte.lineFeed :: rest) = line :: lines rest := by
  rw [lines, split_append_cons, split_of_notMem h]
  rfl

theorem lines_ne_nil (d : Bytes) : lines d ≠ [] := split_ne_nil _ d

/-- A byte string has one line, which is not ended, or a line that is ended and then the rest. -/
@[elab_as_elim]
theorem lines_induction {motive : Bytes → Prop}
    (last : ∀ line, Byte.lineFeed ∉ line → motive line)
    (ended : ∀ line rest, Byte.lineFeed ∉ line → motive rest →
      motive (line ++ Byte.lineFeed :: rest)) (d : Bytes) : motive d := by
  by_cases h : Byte.lineFeed ∈ d
  · obtain ⟨line, rest, rfl, hline⟩ := List.eq_append_cons_of_mem h
    exact ended line rest hline (lines_induction last ended rest)
  · exact last d h
termination_by d.length
decreasing_by simp_all; omega

/-- Each line feed ends a line, and one more line follows the last of them. -/
theorem length_lines (d : Bytes) : (lines d).length = lineFeeds d + 1 := by
  induction d using lines_induction with
  | last line h => rw [lines_of_notMem h, lineFeeds, List.count_eq_zero.mpr h, List.length_singleton]
  | ended line rest h ih =>
    rw [lines_append_cons h, List.length_cons, ih, lineFeeds, lineFeeds, List.count_append,
      List.count_eq_zero.mpr h, Nat.zero_add, List.count_cons_self]

@[simp] theorem ofLines_nil : ofLines [] = [] := rfl

@[simp] theorem ofLines_append (a b : List Bytes) : ofLines (a ++ b) = ofLines a ++ ofLines b := by
  simp [ofLines]

theorem ofLines_singleton (line : Bytes) : ofLines [line] = line ++ [Byte.lineFeed] := by
  simp [ofLines]

theorem ofLines_cons (line : Bytes) (rest : List Bytes) :
    ofLines (line :: rest) = line ++ Byte.lineFeed :: ofLines rest := by
  simp [ofLines]

/-- Texts that are each ended by a line feed give their lines, one text after the other. -/
theorem lines_ofLines_eq_flatMap (ls : List Bytes) :
    lines (ofLines ls) = ls.flatMap lines ++ [[]] := by
  induction ls with
  | nil => rfl
  | cons l rest ih =>
    rw [ofLines_cons, lines, split_append_cons, ← lines, ← lines, ih, List.flatMap_cons,
      List.append_assoc]

theorem lines_ofLines {ls : List Bytes} (h : ∀ l ∈ ls, Byte.lineFeed ∉ l) :
    lines (ofLines ls) = ls ++ [[]] := by
  induction ls with
  | nil => rfl
  | cons l rest ih =>
    obtain ⟨hl, hrest⟩ := List.forall_mem_cons.mp h
    rw [ofLines_cons, lines_append_cons hl, ih hrest]
    rfl

/-- Nothing is lost when a byte string is cut into lines. -/
theorem exists_lines_eq (d : Bytes) :
    ∃ ls last, lines d = ls ++ [last] ∧ d = ofLines ls ++ last := by
  induction d using lines_induction with
  | last line h => exact ⟨[], line, lines_of_notMem h, rfl⟩
  | ended line rest h ih =>
    obtain ⟨ls, last, hlines, hrest⟩ := ih
    refine ⟨line :: ls, last, ?_, ?_⟩
    · rw [lines_append_cons h, hlines]
      rfl
    · rw [ofLines_cons, List.append_assoc, List.cons_append, ← hrest]

/-! ## Line feeds at the end -/

@[simp] theorem finalLineFeeds_nil : finalLineFeeds [] = 0 := rfl

theorem finalLineFeeds_concat_lineFeed (d : Bytes) :
    finalLineFeeds (d ++ [Byte.lineFeed]) = finalLineFeeds d + 1 := by
  simp [finalLineFeeds]

theorem finalLineFeeds_concat_of_ne {b : UInt8} (h : b ≠ Byte.lineFeed) (d : Bytes) :
    finalLineFeeds (d ++ [b]) = 0 := by
  simp [finalLineFeeds, h]

/-- No line feed at the end: the last line is not empty, or there is nothing at all. -/
theorem finalLineFeeds_ofLines_append_eq_zero_iff {ls : List Bytes} {last : Bytes}
    (h : Byte.lineFeed ∉ last) :
    finalLineFeeds (ofLines ls ++ last) = 0 ↔ last ≠ [] ∨ ls = [] := by
  rcases List.eq_nil_or_concat last with rfl | ⟨front, b, rfl⟩
  · rcases List.eq_nil_or_concat ls with rfl | ⟨front, l, rfl⟩
    · simp
    · rw [List.concat_eq_append, ofLines_append, ofLines_singleton, List.append_nil,
        ← List.append_assoc, finalLineFeeds_concat_lineFeed]
      simp
  · rw [List.concat_eq_append] at h ⊢
    have hb : b ≠ Byte.lineFeed := fun e => h (by simp [e])
    rw [← List.append_assoc, finalLineFeeds_concat_of_ne hb]
    simp

/-- Exactly one line feed at the end, said of lines. -/
theorem finalLineFeeds_eq_one_iff {d : Bytes} :
    finalLineFeeds d = 1 ↔ ∃ ls, ls ≠ [] ∧ d = ofLines ls ∧ (∀ l ∈ ls, Byte.lineFeed ∉ l) ∧
      (ls.getLast? ≠ some [] ∨ ls.length = 1) := by
  constructor
  · intro h
    rcases List.eq_nil_or_concat d with rfl | ⟨front, b, rfl⟩
    · cases h
    rw [List.concat_eq_append] at h ⊢
    by_cases hb : b = Byte.lineFeed
    · obtain ⟨ls, last, hlines, hfront⟩ := exists_lines_eq front
      have hnot : ∀ l ∈ ls ++ [last], Byte.lineFeed ∉ l := fun l hl =>
        notMem_of_mem_split (hlines ▸ hl)
      rw [hb, finalLineFeeds_concat_lineFeed, Nat.add_eq_right, hfront,
        finalLineFeeds_ofLines_append_eq_zero_iff (hnot last (by simp))] at h
      refine ⟨ls ++ [last], by simp, ?_, hnot, ?_⟩
      · rw [hb, hfront, ofLines_append, ofLines_singleton, List.append_assoc]
      · rcases h with h | rfl
        · exact .inl (by simpa using h)
        · exact .inr rfl
    · rw [finalLineFeeds_concat_of_ne hb] at h
      cases h
  · rintro ⟨ls, hne, rfl, hnot, hlast⟩
    obtain ⟨front, last, rfl⟩ := (List.eq_nil_or_concat ls).resolve_left hne
    rw [List.concat_eq_append] at hnot hlast ⊢
    rw [ofLines_append, ofLines_singleton, ← List.append_assoc, finalLineFeeds_concat_lineFeed,
      Nat.add_eq_right, finalLineFeeds_ofLines_append_eq_zero_iff (hnot last (by simp))]
    rcases hlast with h | h
    · exact .inl (by simpa using h)
    · exact .inr (by simpa using h)

end TextHygiene.Bytes
