import TextHygiene.Proofs.ExitStatus
import TextHygiene.Proofs.Opening

/-! The line feeds of a message. The text of a fault or of an error has none, so that a message has
those of its path: the lossy text of a path has as many as the path itself. -/

namespace TextHygiene

namespace Utf8

/-! ## Lossy texts -/

/-- A character that has begun and is none of ASCII: it goes on with bytes that are none of ASCII, and
its number gets large enough. A first byte may leave it with no bits at all, but then the range of the
second byte brings them. -/
def Open.IsLong (o : Open) : Prop :=
  ∀ b, o.Admits b → 0x80 ≤ b.toNat ∧ 2 ≤ o.bits * 64 + (b.toNat - 0x80) ∧
    (o.missing ≤ 1 → 0x80 ≤ o.bits * 64 + (b.toNat - 0x80))

theorem Open.isLong_of_two_le {bits : Nat} (h : 2 ≤ bits) (missing : Nat) :
    IsLong ⟨bits, missing, 0x80, 0xBF⟩ := by
  intro b hb
  obtain ⟨hb, -⟩ := admits_iff_isTail.mp hb
  dsimp only
  omega

theorem isLong_of_lead? {a : UInt8} {o : Open} (h : lead? a = some o) : o.IsLong := by
  by_cases hnone : a.toNat < 0xC2 ∨ 0xF4 < a.toNat
  · rw [lead?_eq_none hnone] at h
    cases h
  by_cases htwo : a.toNat ≤ 0xDF
  · rw [lead?_two (by omega) htwo] at h
    obtain rfl := Option.some.inj h
    exact Open.isLong_of_two_le (by omega) 1
  by_cases hthree : a.toNat ≤ 0xEF
  · obtain ⟨low, high, hlead, hadmits⟩ := lead?_three (a := a) (by omega) hthree
    obtain rfl := Option.some.inj (hlead.symm.trans h)
    intro b hb
    obtain ⟨⟨hb, -⟩, hlow, -⟩ := (hadmits b).mp hb
    dsimp only
    omega
  · obtain ⟨low, high, hlead, hadmits⟩ := lead?_four (a := a) (by omega) (by omega)
    obtain rfl := Option.some.inj (hlead.symm.trans h)
    intro b hb
    obtain ⟨⟨hb, -⟩, hlow, -⟩ := (hadmits b).mp hb
    dsimp only
    omega

theorem ofNat_ne_lineFeed {n : Nat} (h : n ≠ Byte.lineFeed.toNat) : Char.ofNat n ≠ '\n' := by
  intro heq
  by_cases hvalid : n.isValidChar
  · exact h ((toNat_ofNat_char hvalid).symm.trans (congrArg Char.toNat heq))
  · rw [Char.ofNat, dif_neg hvalid] at heq
    cases heq

/-- The first byte of a piece gives a line feed when it is one. -/
theorem count_start (a : UInt8) :
    (start a).1.count (some '\n') = [a].count Byte.lineFeed ∧ ∀ o ∈ (start a).2, o.IsLong := by
  unfold start
  by_cases hascii : Byte.isAscii a = true
  · rw [if_pos hascii]
    refine ⟨?_, fun o ho => by cases ho⟩
    by_cases ha : a = Byte.lineFeed
    · rw [ha]
      decide
    · have hchar := ofNat_ne_lineFeed fun h => ha (UInt8.toNat_inj.mp h)
      simp [hchar, ha]
  · rw [if_neg hascii]
    have ha : a ≠ Byte.lineFeed := by
      rintro rfl
      exact hascii rfl
    cases hlead : lead? a with
    | none => simp [ha]
    | some o => simpa [ha] using isLong_of_lead? hlead

theorem count_feed {o? : Option Open} (h : ∀ o ∈ o?, o.IsLong) (a : UInt8) :
    (feed o? a).1.count (some '\n') = [a].count Byte.lineFeed ∧
      ∀ o ∈ (feed o? a).2, o.IsLong := by
  cases o? with
  | none => exact count_start a
  | some o =>
    by_cases hrange : o.low ≤ a ∧ a ≤ o.high
    · obtain ⟨htail, hbits, hlast⟩ := h o rfl a hrange
      have ha : a ≠ Byte.lineFeed := by
        rintro rfl
        exact absurd htail (by decide)
      by_cases hmissing : o.missing ≤ 1
      · have hchar : Char.ofNat (o.bits * 64 + (a.toNat - 0x80)) ≠ '\n' :=
          ofNat_ne_lineFeed (Nat.ne_of_gt (Nat.lt_of_lt_of_le (by decide) (hlast hmissing)))
        simp [feed, hrange, hmissing, hchar, ha]
      · simpa [feed, hrange, hmissing, ha] using Open.isLong_of_two_le hbits (o.missing - 1)
    · simpa [feed, hrange] using count_start a

/-- An open character is long at every byte, so that only line feeds are read as line feeds. -/
theorem count_piecesFrom {o? : Option Open} (h : ∀ o ∈ o?, o.IsLong) (bs : Bytes) :
    (piecesFrom o? bs).count (some '\n') = bs.lineFeeds := by
  induction bs generalizing o? with
  | nil => cases o? <;> rfl
  | cons a rest ih =>
    obtain ⟨hcount, hopen⟩ := count_feed h a
    rw [piecesFrom, List.count_append, hcount, ih hopen, Bytes.lineFeeds, Bytes.lineFeeds,
      ← List.count_append, List.singleton_append]

/-- The lossy text has the line feeds of the bytes: none of them is part of a longer character or
gets lost in an ill-formed run. -/
theorem count_lossy (bs : Bytes) : (lossy bs).count '\n' = bs.lineFeeds := by
  have hshown : ∀ ps : List (Option Char),
      (ps.map (·.getD '\uFFFD')).count '\n' = ps.count (some '\n') := by
    intro ps
    induction ps with
    | nil => rfl
    | cons p rest ih => cases p <;> simp [List.count_cons, ih]
  rw [lossy, hshown, pieces, count_piecesFrom (fun o ho => by cases ho)]

end Utf8

/-! ## The texts of faults and errors -/

theorem IsOneLine.append {a b : String} (ha : IsOneLine a) (hb : IsOneLine b) :
    IsOneLine (a ++ b) := by
  rw [IsOneLine, String.toList_append, List.mem_append, not_or]
  exact ⟨ha, hb⟩

theorem Decimal.isOneLine_text (n : Nat) : IsOneLine (text n) := by
  intro hmem
  rw [text, String.toList_ofList] at hmem
  exact absurd (Json.isDigit_of_mem_digits hmem) (by decide)

theorem Fault.isOneLine_describe (f : Fault) : IsOneLine f.describe := by
  have hnumber := Decimal.isOneLine_text
  cases f with
  | windowsLineEnding n => exact .append (by decide) (hnumber n)
  | tabCharacter n => exact .append (by decide) (hnumber n)
  | badIndentation u n =>
    have hunit : IsOneLine ("is not using " ++ Decimal.text u) := .append (by decide) (hnumber u)
    exact .append (.append hunit (by decide)) (hnumber n)
  | trailingWhitespace n => exact .append (by decide) (hnumber n)
  | finalNewlineCount n => exact .append (.append (by decide) (hnumber n)) (by decide)
  | nonAscii n => exact .append (by decide) (hnumber n)

namespace IoError

/-- The errors with which a path is found to lead nowhere, or to no file. -/
def ofReading : List IoError :=
  [notFound, notADirectory, isADirectory, nameTooLong, tooManyLinks, nulInPath]

theorem isOneLine_text {e : IoError} (h : e ∈ ofReading) : IsOneLine e.text := by
  have hall : ∀ e ∈ ofReading, IsOneLine e.text := by decide
  exact hall e h

end IoError

namespace Node

variable {root : Node} {loc : Location} {e : IoError}

theorem mem_ofReading_of_move {name : Name} (h : root.move loc name = .error e) :
    e ∈ IoError.ofReading := by
  unfold move at h
  split at h
  · split at h
    · cases h
    split at h
    · cases h
    split at h
    · cases h
      decide
    split at h <;> cases h
  · cases h
    decide

theorem mem_ofReading_of_walk {names : List Name} (h : root.walk loc names = .error e) :
    e ∈ IoError.ofReading := by
  induction names generalizing loc with
  | nil => cases h
  | cons name rest ih =>
    rw [walk] at h
    split at h
    · rename_i hmove
      cases h
      exact mem_ofReading_of_move hmove
    · cases h
      decide
    · cases h
    · exact ih h

theorem mem_ofReading_of_resolve {links : Nat} {names : List Name}
    (h : root.resolve links loc names = .error e) : e ∈ IoError.ofReading := by
  induction links generalizing loc names with
  | zero =>
    unfold resolve at h
    split at h
    · rename_i hwalk
      cases h
      exact mem_ofReading_of_walk hwalk
    · cases h
    · cases h
      decide
  | succ links ih =>
    unfold resolve at h
    split at h
    · rename_i hwalk
      cases h
      exact mem_ofReading_of_walk hwalk
    · cases h
    · exact ih h

end Node

namespace FileSystem

variable {fs : FileSystem} {p : Path} {e : IoError}

theorem mem_ofReading_of_refusal? (h : refusal? p = some e) : e ∈ IoError.ofReading := by
  unfold refusal? at h
  split at h
  · cases h
    decide
  split at h
  · cases h
    decide
  split at h
  · cases h
    decide
  · cases h

theorem mem_ofReading_of_reached? (h : fs.reached? p = .error e) : e ∈ IoError.ofReading := by
  unfold reached? at h
  split at h
  · rename_i hlocate
    cases h
    unfold locate at hlocate
    split at hlocate
    · rename_i hrefusal
      cases hlocate
      exact mem_ofReading_of_refusal? hrefusal
    · exact Node.mem_ofReading_of_resolve hlocate
  · split at h
    · cases h
    · cases h
      decide

theorem isOneLine_of_openStream (h : fs.openStream p = .error e) : IsOneLine e.text := by
  have hopening := fs.opening p
  rw [h] at hopening
  cases hopening with
  | missing nowhere => exact IoError.isOneLine_text (mem_ofReading_of_reached? nowhere)
  | @refused content d e entry refusal => exact e.oneLine

/-- What is opened fails as a folder does, or with an error of the disk. -/
theorem isOneLine_of_error? {s : Stream} (h : fs.openStream p = .ok s) (he : s.error? = some e) :
    IsOneLine e.text := by
  have hopening := fs.opening p
  rw [h] at hopening
  cases hopening with
  | noFile =>
    cases he
    decide
  | @broken content d n e entry opens fault =>
    rw [e.error?_stream] at he
    cases he
    exact e.oneLine
  | whole => cases he

end FileSystem

/-- Whatever a check says of a file is one line. -/
theorem FileSystem.isOneLine_of_check {fs : FileSystem} {t : TabSize} {r : Rule} {p : Path}
    {f : Failure} (h : fs.check t r p = some f) : IsOneLine f.cause.describe := by
  have hread : ∀ e : IoError, IsOneLine e.text → IsOneLine (Cause.unreadable e).describe :=
    fun e he => .append (by decide) he
  obtain ⟨-, ⟨e, hopen, hcause⟩ | ⟨s, hopen, hverdict⟩⟩ := check_eq_some_iff.mp h
  · rw [hcause]
    exact hread e (isOneLine_of_openStream hopen)
  · cases hcause : f.cause with
    | fault fault => exact fault.isOneLine_describe
    | unreadable e =>
      rw [hcause] at hverdict
      exact hread e (isOneLine_of_error? hopen (Detector.error?_of_judge hverdict))

/-! ## Messages -/

namespace Failure

/-- A message as it is written. -/
def bytes (f : Failure) : Bytes := Utf8.encode f.message.toList

/-- A message has the line feeds of its path. -/
theorem lineFeeds_bytes {f : Failure} (h : IsOneLine f.cause.describe) :
    f.bytes.lineFeeds = Bytes.lineFeeds f.path := by
  have hfile : "File '".toList.count '\n' = 0 := by decide
  have hquote : "' ".toList.count '\n' = 0 := by decide
  have hdisplay : f.path.display.toList.count '\n' = Bytes.lineFeeds f.path := by
    rw [Path.display, String.toList_ofList, Utf8.count_lossy]
  have hcause : f.cause.describe.toList.count '\n' = 0 := List.count_eq_zero.mpr h
  have hchar : Char.ofNat Byte.lineFeed.toNat = '\n' := by decide
  rw [bytes, Bytes.lineFeeds, Utf8.count_encode (by decide), hchar, message]
  simp only [String.toList_append, List.count_append, hfile, hquote, hdisplay, hcause]
  omega

end Failure

end TextHygiene
