import TextHygiene.Proofs.DiscoveryExactness

/-! Names with a dot in front. Such an entry is left out with all that is below it when its name is
well-formed text; an entry whose name is not is found like any other. -/

namespace TextHygiene

namespace Name

/-- A name with a dot in front, whatever its other bytes are. -/
def IsDotted (n : Name) : Prop := n.head? = some Byte.dot

theorem not_isDotText_iff {n : Name} : ¬ n.IsDotText ↔ (n.IsDotted → Utf8.decode? n = none) := by
  rw [← isHidden_iff, isHidden, Bool.and_eq_true, decide_eq_true_eq, not_and, Bool.not_eq_true,
    Option.isSome_eq_false_iff, Option.isNone_iff_eq_none, IsDotted]

end Name

namespace FileSystem

variable {fs : FileSystem} {extensions : List String} {root : Path} {es : List (Name × Node)}

/-- What is found below a folder are the files with a wanted extension that no name with a dot in
front leads to, or none but names that are no well-formed text. -/
theorem found_iff_dotted_names_are_ill_formed (hfs : fs.root.WellFormed)
    (h : fs.node? root = .ok (.folder es)) (p : Path) :
    p ∈ fs.discover extensions root ↔ ∃ loc, p = Location.below root loc ∧
      (∃ content, (Node.folder es).at? loc = some (.file content)) ∧
      (∀ name ∈ loc, name.IsDotted → Utf8.decode? name = none) ∧
      (∃ front name, loc = front ++ [name] ∧ name.HasExtension extensions) ∧
      (Location.below root loc.dropLast).isTooLong = false := by
  rw [mem_discover_folder_iff hfs h]
  refine exists_congr fun loc => and_congr_right fun _ => ?_
  constructor
  · rintro ⟨hsource, hshort⟩
    exact ⟨hsource.file, fun name hmem => Name.not_isDotText_iff.mp (hsource.visible name hmem),
      hsource.extension, hshort⟩
  · rintro ⟨hfile, hdotted, hextension, hshort⟩
    refine ⟨⟨hfile, fun front name rest heq => ?_, fun name hmem => ?_, hextension⟩, hshort⟩
    · obtain ⟨content, hat⟩ := hfile
      exact Node.exists_folder_of_at?_append (heq ▸ hat)
    · exact Name.not_isDotText_iff.mpr (hdotted name hmem)

/-- A folder with two files of one extension and dots in front of their names: one name is text, and
the other has a byte that no text has. -/
def dottedFolder : FileSystem where
  root := .folder
    [([0x2E, 0x61, 0x2E, 0x63, 0x73], .file []), ([0x2E, 0xFF, 0x2E, 0x63, 0x73], .file [])]
  current := []

theorem wellFormed_dottedFolder : dottedFolder.root.WellFormed :=
  ⟨by decide, by decide, trivial, by decide, trivial, trivial⟩

/-- The dot does not hide a name that is no text: the file is found below its folder. -/
theorem ill_formed_dotted_name_is_found :
    (dottedFolder.root.WellFormed ∧
      dottedFolder.node? [0x2E] = .ok dottedFolder.root) ∧
    [0x2E, 0x2F, 0x2E, 0xFF, 0x2E, 0x63, 0x73] ∈ dottedFolder.discover ["cs"] [0x2E] := by
  have hnode : dottedFolder.node? [0x2E] = .ok dottedFolder.root := rfl
  refine ⟨⟨wellFormed_dottedFolder, hnode⟩,
    (found_iff_dotted_names_are_ill_formed wellFormed_dottedFolder hnode _).mpr
      ⟨[[0x2E, 0xFF, 0x2E, 0x63, 0x73]], rfl, ⟨[], rfl⟩, ?_, ?_, rfl⟩⟩
  · exact List.forall_mem_singleton.mpr fun _ => by decide
  · exact ⟨[], _, rfl, [0x2E, 0xFF], "cs".toList, "cs", by decide, by decide, by decide, by decide,
      rfl⟩

/-- It is not the case that names with a dot in front are never on the way to what is found. -/
theorem dotted_names_are_not_always_hidden :
    ¬ ∀ (fs : FileSystem) (extensions : List String) (root : Path) (es : List (Name × Node)),
      fs.root.WellFormed → fs.node? root = .ok (.folder es) →
      ∀ p ∈ fs.discover extensions root, ∀ loc, (∀ name ∈ loc, name.IsProper) →
        p = Location.below root loc → ∀ name ∈ loc, ¬ name.IsDotted := by
  intro h
  have hfound : dottedFolder.discover ["cs"] [0x2E] =
      [Location.below [0x2E] [[0x2E, 0xFF, 0x2E, 0x63, 0x73]]] := by cbv
  have hproper : ∀ name ∈ [[0x2E, 0xFF, 0x2E, 0x63, 0x73]], Name.IsProper name :=
    List.forall_mem_singleton.mpr ⟨by decide, by decide, by decide, by decide⟩
  exact h dottedFolder ["cs"] [0x2E] _ wellFormed_dottedFolder rfl _
    (hfound ▸ List.mem_singleton_self _) _ hproper rfl _ (List.mem_singleton_self _) rfl

end FileSystem

end TextHygiene
