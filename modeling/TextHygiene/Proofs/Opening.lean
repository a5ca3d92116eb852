import TextHygiene.Tree.Resolve

/-! What comes of opening a path for reading, told by what it leads to and by what the disk has to
say of that. -/

namespace TextHygiene

/-- Reading goes on after an interruption only, so that an error of the disk is met. -/
theorem DiskError.error?_stream (e : DiskError) (bytes : Bytes) :
    Stream.error? { bytes := bytes, ending := some e.toIoError } = some e.toIoError := by
  simp [Stream.error?, e.lasting]

namespace FileSystem

/-- The ways in which opening a path can go. -/
inductive Opening (fs : FileSystem) (p : Path) : Except IoError Stream → Prop
  | missing {e : IoError} (nowhere : fs.reached? p = .error e) : Opening fs p (.error e)
  | noFile {n : Node} {d : DiskEntry} (entry : fs.reached? p = .ok (n, d))
    (other : ∀ content, n ≠ .file content) :
    Opening fs p (.ok { bytes := [], ending := some .isADirectory })
  | refused {content : Bytes} {d : DiskEntry} {e : DiskError}
    (entry : fs.reached? p = .ok (.file content, d)) (refusal : d.readRefusal = some e) :
    Opening fs p (.error e.toIoError)
  | broken {content : Bytes} {d : DiskEntry} {n : Nat} {e : DiskError}
    (entry : fs.reached? p = .ok (.file content, d)) (opens : d.readRefusal = none)
    (fault : d.fault = some (n, e)) :
    Opening fs p (.ok { bytes := content.take n, ending := some e.toIoError })
  | whole {content : Bytes} {d : DiskEntry} (entry : fs.reached? p = .ok (.file content, d))
    (opens : d.readRefusal = none) (sound : d.fault = none) :
    Opening fs p (.ok { bytes := content })

variable {fs : FileSystem} {p : Path}

theorem opening (fs : FileSystem) (p : Path) : Opening fs p (fs.openStream p) := by
  unfold openStream
  split
  · rename_i hentry
    exact .missing hentry
  · rename_i content d hentry
    unfold DiskEntry.openStream
    split
    · rename_i hrefusal
      exact .refused hentry hrefusal
    · rename_i hopens hfault
      exact .broken hentry hopens hfault
    · rename_i hopens hsound
      exact .whole hentry hopens hsound
  · rename_i entry hother hentry
    refine .noFile hentry fun content hcontent => hother content entry.2 ?_
    rw [← hcontent]

theorem Opening.openStream_eq {r : Except IoError Stream} (h : Opening fs p r) :
    fs.openStream p = r := by
  cases h with
  | missing nowhere => rw [openStream, nowhere]
  | @noFile n d entry other =>
    cases n with
    | file content => exact absurd rfl (other content)
    | link target => rw [openStream, entry]
    | folder es => rw [openStream, entry]
  | refused entry refusal =>
    rw [openStream, entry]
    simp only [DiskEntry.openStream, refusal]
  | broken entry opens fault =>
    rw [openStream, entry]
    simp only [DiskEntry.openStream, opens, fault]
  | whole entry opens sound =>
    rw [openStream, entry]
    simp only [DiskEntry.openStream, opens, sound]

/-- A path leads to a file that is opened and read to its end. -/
def Holds (fs : FileSystem) (p : Path) (content : Bytes) : Prop :=
  ∃ d, fs.reached? p = .ok (.file content, d) ∧ d.readRefusal = none ∧ d.fault = none

theorem Holds.openStream_eq {content : Bytes} (h : fs.Holds p content) :
    fs.openStream p = .ok { bytes := content } := by
  obtain ⟨d, hentry, hopens, hsound⟩ := h
  exact (Opening.whole hentry hopens hsound).openStream_eq

end FileSystem

end TextHygiene
