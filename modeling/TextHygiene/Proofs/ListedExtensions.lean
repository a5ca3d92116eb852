import Mathlib
import TextHygiene.Proofs.DiscoveryExactness
import TextHygiene.Proofs.NormalSettings

/-! Files that are found by the extensions of a settings document. Only what is kept of the listed
extensions counts, not how they are spelled or how often they are listed; and two lists together
find what each of them finds. -/

namespace TextHygiene

namespace Path

/-- The paths of two lists, each once and in the order of their names. -/
def union (a b : List Path) : List Path :=
  (a ++ b).dedup.mergeSort fun p q => decide (p.names ≤ q.names)

theorem union_perm (a b : List Path) : (union a b).Perm (a ++ b).dedup := List.mergeSort_perm _ _

/-- A list in strict order with the paths of both lists is their union. -/
theorem union_eq_of_pairwise {a b found : List Path}
    (ordered : found.Pairwise fun p q => p.names < q.names)
    (members : ∀ p, p ∈ found ↔ p ∈ a ∨ p ∈ b) : union a b = found := by
  have hnames : (found.map names).Nodup := by
    refine List.pairwise_map.mpr (ordered.imp fun {p q} hlt heq => ?_)
    rw [heq] at hlt
    exact List.lt_irrefl _ hlt
  have hperm : (union a b).Perm found := by
    refine (union_perm a b).trans ?_
    refine (List.perm_ext_iff_of_nodup (List.nodup_dedup _) (.of_map names hnames)).mpr fun p => ?_
    rw [List.mem_dedup, List.mem_append, members]
  refine hperm.eq_of_pairwise ?_ (Location.pairwise_mergeSort names _) (ordered.imp List.le_of_lt)
  intro p q hp hq hpq hqp
  exact List.inj_on_of_nodup_map hnames (hperm.mem_iff.mp hp) hq (List.le_antisymm hpq hqp)

end Path

/-! ## Extensions of two lists -/

theorem Name.hasExtension_append_iff {X Y : List String} {n : Name} :
    n.HasExtension (X ++ Y) ↔ n.HasExtension X ∨ n.HasExtension Y := by
  simp only [HasExtension, List.mem_append, or_and_right, and_or_left, exists_or]

/-- Whether a name has one of the extensions depends on the set of them. -/
theorem Name.hasExtension_congr {X Y : List String} (h : ∀ e, e ∈ X ↔ e ∈ Y) (n : Name) :
    n.hasExtension X = n.hasExtension Y := by
  rw [Bool.eq_iff_iff, hasExtension_iff, hasExtension_iff]
  simp only [HasExtension, h]

theorem Node.isSource_append_iff {X Y : List String} {n : Node} {loc : Location} :
    n.IsSource (X ++ Y) loc ↔ n.IsSource X loc ∨ n.IsSource Y loc := by
  constructor
  · rintro ⟨hfile, hfolders, hvisible, front, name, heq, hname⟩
    rcases Name.hasExtension_append_iff.mp hname with hX | hY
    · exact .inl ⟨hfile, hfolders, hvisible, front, name, heq, hX⟩
    · exact .inr ⟨hfile, hfolders, hvisible, front, name, heq, hY⟩
  · rintro (⟨hfile, hfolders, hvisible, front, name, heq, hX⟩ |
      ⟨hfile, hfolders, hvisible, front, name, heq, hY⟩)
    · exact ⟨hfile, hfolders, hvisible, front, name, heq, Name.hasExtension_append_iff.mpr (.inl hX)⟩
    · exact ⟨hfile, hfolders, hvisible, front, name, heq, Name.hasExtension_append_iff.mpr (.inr hY)⟩

namespace FileSystem

variable {fs : FileSystem} {root : Path} {X Y : List String}

theorem discover_congr (h : ∀ e, e ∈ X ↔ e ∈ Y) (fs : FileSystem) (root : Path) :
    fs.discover X root = fs.discover Y root := by
  have hwanted : (Name.hasExtension X ·) = (Name.hasExtension Y ·) :=
    funext (Name.hasExtension_congr h)
  rw [discover, discover, hwanted]

theorem mem_discover_append_iff (hfs : fs.root.WellFormed) {p : Path} :
    p ∈ fs.discover (X ++ Y) root ↔ p ∈ fs.discover X root ∨ p ∈ fs.discover Y root := by
  cases h : fs.node? root with
  | error e => simp [discover, h]
  | ok n =>
    cases n with
    | file content => simp [discover_file h]
    | link target => simp [discover_link h]
    | folder es =>
      simp only [mem_discover_folder_iff hfs h, Node.isSource_append_iff, or_and_right, and_or_left,
        exists_or]

/-- Two lists of extensions together find what each of them finds, each path once and in order. -/
theorem discover_append (hfs : fs.root.WellFormed) (X Y : List String) (root : Path) :
    fs.discover (X ++ Y) root = Path.union (fs.discover X root) (fs.discover Y root) :=
  (Path.union_eq_of_pairwise (pairwise_discover hfs (X ++ Y) root) fun _ =>
    mem_discover_append_iff hfs).symm

end FileSystem

/-! ## Settings that list extensions -/

namespace Settings

/-- The settings were read from a document with this list of extensions. -/
def Lists (s : Settings) (es : List String) : Prop :=
  ∃ d : Document, d.extensions = some es ∧ ofDocument d = .ok s

/-- The same is kept of the extensions of both lists. -/
def SameKept (X Y : List String) : Prop :=
  ∀ kept, (∃ e ∈ X, IsKeptOf e kept) ↔ ∃ e ∈ Y, IsKeptOf e kept

theorem Lists.extensions_eq {s : Settings} {es : List String} (h : s.Lists es) :
    s.extensions = es.map normalizeExtension := by
  obtain ⟨d, hes, hd⟩ := h
  rw [(ofDocument_eq_ok_iff.mp hd).2.2, hes]
  rfl

/-- The settings of a text list the extensions that its document lists. -/
theorem lists_of_ofText {document? : List Char → Option Document} {origin : Path}
    {text : List Char} {d : Document} {es : List String} {s : Settings}
    (hread : document? text = some d) (hes : d.extensions = some es)
    (h : ofText document? origin text = .ok s) : s.Lists es :=
  ⟨d, hes, (ofText_of_eq_some hread origin).symm.trans h⟩

theorem sameKept_iff {X Y : List String} : SameKept X Y ↔
    ∀ kept, kept ∈ X.map normalizeExtension ↔ kept ∈ Y.map normalizeExtension := by
  simp only [SameKept, isKeptOf_iff, List.mem_map, eq_comm]

/-- Settings find the same files whichever way their extensions are spelled and however often they
are listed: with all dots in front left out and ASCII letters in lower case, only the set of them
counts. The files for two lists in one are the union of the files for each of them. -/
theorem files_found_for_listed_extensions (fs : FileSystem) (root : Path) (X Y : List String) :
    (∀ s s' : Settings, s.Lists X → s'.Lists Y → SameKept X Y →
      fs.discover s.extensions root = fs.discover s'.extensions root) ∧
    (fs.root.WellFormed →
      fs.discover (X ++ Y) root = Path.union (fs.discover X root) (fs.discover Y root) ∧
      ∀ both first second : Settings, both.Lists (X ++ Y) → first.Lists X → second.Lists Y →
        fs.discover both.extensions root =
          Path.union (fs.discover first.extensions root) (fs.discover second.extensions root)) := by
  refine ⟨fun s s' hs hs' hsame => ?_, fun hfs => ⟨FileSystem.discover_append hfs X Y root, ?_⟩⟩
  · rw [hs.extensions_eq, hs'.extensions_eq]
    exact FileSystem.discover_congr (sameKept_iff.mp hsame) fs root
  · intro both first second hboth hfirst hsecond
    rw [hboth.extensions_eq, hfirst.extensions_eq, hsecond.extensions_eq, List.map_append]
    exact FileSystem.discover_append hfs _ _ root

/-- A folder of scripts, shaders and a note. -/
def mixedEntries : List (Name × Node) :=
  [([0x62, 0x2E, 0x68, 0x6C, 0x73, 0x6C], .file []), ([0x61, 0x2E, 0x43, 0x73], .file []),
    ([0x63, 0x2E, 0x6D, 0x64], .file [])]

def mixedFolder : FileSystem where
  root := .folder [([0x73], .folder mixedEntries)]
  current := []

theorem wellFormed_mixedFolder : mixedFolder.root.WellFormed := by
  have hentries : Node.EntriesWellFormed mixedEntries :=
    ⟨by decide, trivial, by decide, trivial, by decide, trivial, trivial⟩
  exact ⟨by decide, by decide, ⟨by decide, hentries⟩, trivial⟩

/-- Two documents that list the same two extensions, one of them twice, and two documents that share
one extension besides a third that lists all of theirs. -/
theorem files_found_in_mixedFolder :
    let X := ["..Cs", "hlsl", "CS"]
    let Y := ["HLSL", ".cs"]
    let Z := ["md", ".cs"]
    let settings (extensions : List String) : Settings := ⟨defaultTabSize, extensions, Rule.all⟩
    let s := settings ["cs", "hlsl", "cs"]
    let s' := settings ["hlsl", "cs"]
    let first := settings ["md", "cs"]
    let both := settings ["md", "cs", "hlsl", "cs"]
    let script : Path := [0x73, 0x2F, 0x61, 0x2E, 0x43, 0x73]
    let shader : Path := [0x73, 0x2F, 0x62, 0x2E, 0x68, 0x6C, 0x73, 0x6C]
    let note : Path := [0x73, 0x2F, 0x63, 0x2E, 0x6D, 0x64]
    (s.Lists X ∧ s'.Lists Y ∧ SameKept X Y ∧
      mixedFolder.root.WellFormed ∧ both.Lists (Z ++ Y) ∧ first.Lists Z) ∧
    mixedFolder.discover s.extensions [0x73] = mixedFolder.discover s'.extensions [0x73] ∧
    mixedFolder.discover s'.extensions [0x73] = [script, shader] ∧
    mixedFolder.discover both.extensions [0x73] =
      Path.union (mixedFolder.discover first.extensions [0x73])
        (mixedFolder.discover s'.extensions [0x73]) ∧
    mixedFolder.discover both.extensions [0x73] = [script, shader, note] := by
  intro X Y Z settings s s' first both script shader note
  have hread : Document.parse? "extensions = [\"..Cs\", \"hlsl\", \"CS\"]".toList =
      some { extensions := some X } := by cbv
  have hs : s.Lists X := lists_of_ofText hread rfl
    (show ofText Document.parse? [] _ = .ok s by rw [ofText, hread]; decide)
  have hs' : s'.Lists Y := ⟨{ extensions := some Y }, rfl, by decide⟩
  have hfirst : first.Lists Z := ⟨{ extensions := some Z }, rfl, by decide⟩
  have hboth : both.Lists (Z ++ Y) := ⟨{ extensions := some (Z ++ Y) }, rfl, by decide⟩
  have hsame : SameKept X Y := by
    have hX : X.map normalizeExtension = ["cs", "hlsl", "cs"] := by decide
    have hY : Y.map normalizeExtension = ["hlsl", "cs"] := by decide
    refine sameKept_iff.mpr fun kept => ?_
    rw [hX, hY]
    simp only [List.mem_cons, List.not_mem_nil, or_false]
    tauto
  refine ⟨⟨hs, hs', hsame, wellFormed_mixedFolder, hboth, hfirst⟩, ?_, by cbv, ?_, by cbv⟩
  · exact (files_found_for_listed_extensions mixedFolder [0x73] X Y).1 s s' hs hs' hsame
  · exact ((files_found_for_listed_extensions mixedFolder [0x73] Z Y).2 wellFormed_mixedFolder).2
      both first s' hboth hfirst hs'

end Settings

end TextHygiene
