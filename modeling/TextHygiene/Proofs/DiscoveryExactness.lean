import Mathlib
import TextHygiene.Proofs.Lines
import TextHygiene.Proofs.Sources

/-! What is found below a root path is exactly what is to be checked there, in an order that does
not depend on the order in which folders list their entries. -/

namespace TextHygiene

namespace Location

theorem sort_perm (ls : List Location) : (sort ls).Perm ls := List.mergeSort_perm ls le

/-- Sorting by locations puts them in order. -/
theorem pairwise_mergeSort {α : Type} (f : α → Location) (l : List α) :
    (l.mergeSort fun a b => decide (f a ≤ f b)).Pairwise fun a b => f a ≤ f b := by
  refine (List.pairwise_mergeSort ?_ ?_ l).imp of_decide_eq_true
  · intro a b c hab hbc
    exact decide_eq_true (List.le_trans (of_decide_eq_true hab) (of_decide_eq_true hbc))
  · intro a b
    rw [Bool.or_eq_true]
    exact (List.le_total (f a) (f b)).imp decide_eq_true decide_eq_true

theorem pairwise_le_sort (ls : List Location) : (sort ls).Pairwise (· ≤ ·) :=
  pairwise_mergeSort id ls

theorem pairwise_lt_sort {ls : List Location} (h : ls.Nodup) : (sort ls).Pairwise (· < ·) := by
  have hnodup : (sort ls).Nodup := (sort_perm ls).nodup_iff.mpr h
  refine ((pairwise_le_sort ls).and hnodup).imp fun {a b} hab => List.not_le.mp fun hba => ?_
  exact hab.2 (List.le_antisymm hab.1 hba)

theorem sort_eq_of_perm {ls ls' : List Location} (h : ls.Perm ls') : sort ls = sort ls' :=
  List.Perm.eq_of_pairwise (fun _ _ _ _ => List.le_antisymm) (pairwise_le_sort ls)
    (pairwise_le_sort ls') (((sort_perm ls).trans h).trans (sort_perm ls').symm)

end Location

namespace Path

/-- The names between the slashes of a path. -/
def parts (p : Path) : List Name := p.segments.filter (!·.isEmpty)

theorem parts_append_slash (a b : Path) : parts (a ++ Byte.slash :: b) = a.parts ++ b.parts := by
  rw [parts, segments, Bytes.split_append_cons, List.filter_append]
  rfl

theorem parts_of_isProper {n : Name} (hn : n.IsProper) : parts n = [n] := by
  obtain ⟨hne, hslash, -⟩ := hn
  rw [parts, segments, Bytes.split_of_notMem hslash]
  simpa using hne

theorem parts_join (p : Path) {n : Name} (hn : n.IsProper) : (p.join n).parts = p.parts ++ [n] := by
  rw [join]
  by_cases hend : p.getLast? = some Byte.slash
  · obtain ⟨q, rfl⟩ := List.getLast?_eq_some_iff.mp hend
    have hempty : parts [] = [] := by decide
    rw [if_pos (by simp [hend]), List.append_assoc, List.singleton_append, parts_append_slash,
      parts_append_slash, parts_of_isProper hn, hempty, List.append_nil]
  · cases p with
    | nil => exact parts_of_isProper hn
    | cons b rest =>
      rw [if_neg (by simpa using hend), parts_append_slash, parts_of_isProper hn]

theorem getLast?_join (p : Path) {n : Name} (hn : n.IsProper) :
    (p.join n).getLast? ≠ some Byte.slash := by
  obtain ⟨hne, hslash, -⟩ := hn
  have hlast : n.getLast? ≠ some Byte.slash := fun h => hslash (List.mem_of_getLast? h)
  have happend : ∀ q : Path, (q ++ n).getLast? = n.getLast? := fun q =>
    List.getLast?_append_of_ne_nil q hne
  rw [join]
  split
  · rwa [happend]
  · rwa [List.append_cons, happend]

theorem parts_below (p : Path) {loc : Location} (h : ∀ name ∈ loc, name.IsProper) :
    (Location.below p loc).parts = p.parts ++ loc := by
  induction loc generalizing p with
  | nil => rw [List.append_nil]; rfl
  | cons name rest ih =>
    obtain ⟨hname, hrest⟩ := List.forall_mem_cons.mp h
    rw [Location.below, List.foldl_cons, ← Location.below, ih _ hrest, parts_join p hname,
      List.append_assoc, List.singleton_append]

/-- Below a root path, the names of a path are those of the root and those of the location. -/
theorem names_below (p : Path) {front : Location} {name : Name}
    (h : ∀ n ∈ front ++ [name], n.IsProper) :
    (Location.below p (front ++ [name])).names = p.parts ++ (front ++ [name]) := by
  have hlast : (Location.below p (front ++ [name])).getLast? ≠ some Byte.slash := by
    rw [Location.below, List.foldl_append]
    exact getLast?_join _ (h name (by simp))
  rw [names, if_neg hlast, List.append_nil, ← parts, parts_below p h]

end Path

namespace Node

/-- A file that is to be checked below a folder: it is reached through folders, by names that are
not hidden, and it has one of the extensions. -/
structure IsSource (extensions : List String) (n : Node) (loc : Location) : Prop where
  file : ∃ content, n.at? loc = some (file content)
  folders : ∀ front name rest, loc = front ++ name :: rest → ∃ es, n.at? front = some (folder es)
  visible : ∀ name ∈ loc, ¬ name.IsDotText
  extension : ∃ front name, loc = front ++ [name] ∧ name.HasExtension extensions

/-- Every folder below a path has a path of a length with which it can be listed. -/
def IsListable (root : Path) (n : Node) : Prop :=
  ∀ loc es, n.at? loc = some (folder es) → (Location.below root loc).isTooLong = false

variable {extensions : List String} {root : Path} {n : Node} {loc : Location}

theorem mem_sources_hasExtension_iff (hn : n.WellFormed) :
    loc ∈ n.sources (·.hasExtension extensions) root ↔ n.IsSource extensions loc ∧
      (Location.below root loc.dropLast).isTooLong = false := by
  have hvisible : (∀ name ∈ loc, name.isHidden = false) ↔ ∀ name ∈ loc, ¬ name.IsDotText :=
    forall₂_congr fun name _ => by rw [← Name.isHidden_iff, Bool.not_eq_true]
  rw [mem_sources_iff hn, hvisible]
  constructor
  · rintro ⟨⟨content, hat⟩, hnames, front, name, rfl, hwanted, hshort⟩
    refine ⟨⟨⟨content, hat⟩, ?_, hnames, front, name, rfl, Name.hasExtension_iff.mp hwanted⟩, ?_⟩
    · rintro before mid after heq
      exact exists_folder_of_at?_append (heq ▸ hat)
    · rwa [List.dropLast_concat]
  · rintro ⟨⟨hfile, -, hnames, front, name, rfl, hwanted⟩, hshort⟩
    rw [List.dropLast_concat] at hshort
    exact ⟨hfile, hnames, front, name, rfl, Name.hasExtension_iff.mpr hwanted, hshort⟩

theorem isListable_of_not_isFolder (hn : n.isFolder = false) : n.IsListable root := by
  intro loc es hloc
  cases loc with
  | nil =>
    obtain rfl := Option.some.inj (at?_nil n ▸ hloc)
    cases hn
  | cons name rest =>
    obtain ⟨es', m, rfl, -⟩ := at?_cons_eq_some_iff.mp hloc
    cases hn

theorem isListable_folder {es : List (Name × Node)} (hroot : root.isTooLong = false)
    (hes : ∀ e ∈ es, e.2.IsListable (root.join e.1)) : (folder es).IsListable root := by
  intro loc es' hloc
  cases loc with
  | nil => exact hroot
  | cons name rest =>
    obtain ⟨_, m, heq, hlookup, hrest⟩ := at?_cons_eq_some_iff.mp hloc
    cases heq
    obtain ⟨front, back, rfl, -⟩ := List.lookup_eq_some_iff.mp hlookup
    exact hes (name, m) (by simp) rest es' hrest

theorem IsSource.isListable (h : n.IsSource extensions loc) (hn : n.IsListable root) :
    (Location.below root loc.dropLast).isTooLong = false := by
  obtain ⟨front, name, rfl, -⟩ := h.extension
  obtain ⟨es, hes⟩ := h.folders front name [] rfl
  rw [List.dropLast_concat]
  exact hn front es hes

end Node

namespace FileSystem

variable {fs : FileSystem} {extensions : List String} {root : Path}

theorem discover_file {content : Bytes} (h : fs.node? root = .ok (.file content)) :
    fs.discover extensions root = [root] := by
  rw [discover, h]

theorem discover_link {target : Path} (h : fs.node? root = .ok (.link target)) :
    fs.discover extensions root = [] := by
  simp [discover, h, Node.sources, Location.sort]

theorem discover_folder {es : List (Name × Node)} (h : fs.node? root = .ok (.folder es)) :
    fs.discover extensions root =
      (Location.sort ((Node.folder es).sources (·.hasExtension extensions) root)).map
        (Location.below root) := by
  rw [discover, h]

theorem mem_discover_folder_iff (hfs : fs.root.WellFormed) {es : List (Name × Node)}
    (h : fs.node? root = .ok (.folder es)) {p : Path} :
    p ∈ fs.discover extensions root ↔ ∃ loc, p = Location.below root loc ∧
      (Node.folder es).IsSource extensions loc ∧
      (Location.below root loc.dropLast).isTooLong = false := by
  rw [discover_folder h, List.mem_map]
  refine exists_congr fun loc => ?_
  rw [(Location.sort_perm _).mem_iff, Node.mem_sources_hasExtension_iff (wellFormed_of_node? hfs h),
    and_comm, eq_comm]

/-- What is found is in the order of names. -/
theorem pairwise_discover (hfs : fs.root.WellFormed) (extensions : List String) (root : Path) :
    (fs.discover extensions root).Pairwise fun p q => p.names < q.names := by
  cases h : fs.node? root with
  | error e => simp [discover, h]
  | ok n =>
    cases n with
    | file content => simp [discover_file h]
    | link target => simp [discover_link h]
    | folder es =>
      have hn := wellFormed_of_node? hfs h
      rw [discover_folder h, List.pairwise_map]
      refine (Location.pairwise_lt_sort (Node.nodup_sources _ root _ hn)).imp_of_mem ?_
      intro a b ha hb hlt
      rw [(Location.sort_perm _).mem_iff, Node.mem_sources_hasExtension_iff hn] at ha hb
      obtain ⟨⟨_, hata⟩, -, -, _, _, rfl, -⟩ := ha.1
      obtain ⟨⟨_, hatb⟩, -, -, _, _, rfl, -⟩ := hb.1
      rw [Path.names_below root (hn.of_at? hata).1, Path.names_below root (hn.of_at? hatb).1]
      exact List.append_left_lt hlt

/-- One folder that lists its entries in another order makes no difference. -/
theorem discover_reordered (fs : FileSystem) (hfs : fs.root.WellFormed) {top : Node}
    (h : fs.root.Reordered top) (extensions : List String) (root : Path) :
    { fs with root := top }.discover extensions root = fs.discover extensions root := by
  obtain ⟨n, n', hn, hn', hreordered⟩ | ⟨e, he, he'⟩ := node?_reordered hfs h root
  · obtain rfl | ⟨es, es', rfl, rfl⟩ := hreordered.eq_or_folders
    · rw [discover, discover, hn, hn']
    · rw [discover_folder hn, discover_folder hn',
        Location.sort_eq_of_perm (hreordered.sources_perm root)]
  · rw [discover, discover, he, he']

theorem discover_reordered_all (hfs : fs.root.WellFormed) {top : Node}
    (h : Relation.ReflTransGen Node.Reordered fs.root top) (extensions : List String)
    (root : Path) : top.WellFormed ∧
      { fs with root := top }.discover extensions root = fs.discover extensions root := by
  induction h with
  | refl => exact ⟨hfs, rfl⟩
  | tail _ hstep ih =>
    obtain ⟨hwell, heq⟩ := ih
    have hnext := discover_reordered { fs with root := _ } hwell hstep extensions root
    exact ⟨hstep.wellFormed hwell, hnext.trans heq⟩

/-- A root path that leads to a file gives that file. One that leads to a folder gives the files
below it that are to be checked, as far as their folders can be listed, and any other gives nothing.
Each path is found once, and the paths are in the order of their names, however folders list their
entries. -/
theorem discover_is_exact (hfs : fs.root.WellFormed) (extensions : List String) (root : Path) :
    (∀ content, fs.node? root = .ok (.file content) → fs.discover extensions root = [root]) ∧
    (∀ es, fs.node? root = .ok (.folder es) →
      (∀ p, p ∈ fs.discover extensions root ↔ ∃ loc, p = Location.below root loc ∧
        (Node.folder es).IsSource extensions loc ∧
        (Location.below root loc.dropLast).isTooLong = false) ∧
      ((Node.folder es).IsListable root → ∀ p, p ∈ fs.discover extensions root ↔
        ∃ loc, p = Location.below root loc ∧ (Node.folder es).IsSource extensions loc)) ∧
    ((∀ content, fs.node? root ≠ .ok (.file content)) → (∀ es, fs.node? root ≠ .ok (.folder es)) →
      fs.discover extensions root = []) ∧
    (fs.discover extensions root).Nodup ∧
    ((fs.discover extensions root).Pairwise fun p q => p.names < q.names) ∧
    ∀ top, Relation.ReflTransGen Node.Reordered fs.root top →
      { fs with root := top }.discover extensions root = fs.discover extensions root := by
  have hpairwise := pairwise_discover hfs extensions root
  refine ⟨fun _ => discover_file, fun es h => ⟨fun p => mem_discover_folder_iff hfs h, ?_⟩, ?_, ?_,
    hpairwise, fun top h => (discover_reordered_all hfs h extensions root).2⟩
  · intro hlistable p
    rw [mem_discover_folder_iff hfs h]
    refine exists_congr fun loc => and_congr_right fun _ => ?_
    exact and_iff_left_of_imp fun hsource => hsource.isListable hlistable
  · intro hfile hfolder
    cases h : fs.node? root with
    | error e => rw [discover, h]
    | ok n =>
      cases n with
      | file content => exact absurd h (hfile content)
      | folder es => exact absurd h (hfolder es)
      | link target => exact discover_link h
  · refine hpairwise.imp ?_
    rintro p _ hlt rfl
    exact List.lt_irrefl _ hlt

/-- A folder with a hidden folder and a link in it, as it may list its entries. -/
def sampleEntries : List (Name × Node) :=
  [([0x62, 0x2E, 0x43, 0x53], .file []), ([0x61, 0x2E, 0x63, 0x73], .link [0x62]),
    ([0x2E, 0x67], .folder [([0x78, 0x2E, 0x63, 0x73], .file [])]),
    ([0x61], .folder [([0x78, 0x2E, 0x63, 0x73], .file [])])]

def sampleFolders : FileSystem where
  root := .folder [([0x73], .folder sampleEntries)]
  current := []

theorem wellFormed_sampleFolders : sampleFolders.root.WellFormed := by
  have hfile : (Node.folder [([0x78, 0x2E, 0x63, 0x73], .file [])]).WellFormed :=
    ⟨by decide, by decide, trivial, trivial⟩
  have hentries : Node.EntriesWellFormed sampleEntries :=
    ⟨by decide, trivial, by decide, trivial, by decide, hfile, by decide, hfile, trivial⟩
  exact ⟨by decide, by decide, ⟨by decide, hentries⟩, trivial⟩

theorem isListable_sampleEntries : (Node.folder sampleEntries).IsListable [0x73] := by
  have hinner : ∀ p : Path, p.isTooLong = false →
      (Node.folder [([0x78, 0x2E, 0x63, 0x73], .file [])]).IsListable p := fun p hp =>
    Node.isListable_folder hp (List.forall_mem_singleton.mpr (Node.isListable_of_not_isFolder rfl))
  refine Node.isListable_folder (by decide) ?_
  simp only [sampleEntries, List.forall_mem_cons]
  exact ⟨Node.isListable_of_not_isFolder rfl, Node.isListable_of_not_isFolder rfl,
    hinner _ (by decide), hinner _ (by decide), fun _ hmem => absurd hmem List.not_mem_nil⟩

/-- What is found in the sample folder are the two sources in it, in whatever order it lists its
entries. -/
theorem discover_sampleFolders :
    (sampleFolders.root.WellFormed ∧ sampleFolders.node? [0x73] = .ok (.folder sampleEntries) ∧
      (Node.folder sampleEntries).IsListable [0x73]) ∧
    sampleFolders.discover ["cs"] [0x73] =
      [[0x73, 0x2F, 0x61, 0x2F, 0x78, 0x2E, 0x63, 0x73], [0x73, 0x2F, 0x62, 0x2E, 0x43, 0x53]] ∧
    (∀ p ∈ sampleFolders.discover ["cs"] [0x73], ∃ loc, p = Location.below [0x73] loc ∧
      (Node.folder sampleEntries).IsSource ["cs"] loc) ∧
    ∀ es, sampleEntries.Perm es →
      { sampleFolders with root := .folder [([0x73], .folder es)] }.discover ["cs"] [0x73] =
        sampleFolders.discover ["cs"] [0x73] := by
  have hnode : sampleFolders.node? [0x73] = .ok (.folder sampleEntries) := rfl
  obtain ⟨-, hfolder, -, -, -, horder⟩ :=
    discover_is_exact wellFormed_sampleFolders ["cs"] [0x73]
  refine ⟨⟨wellFormed_sampleFolders, hnode, isListable_sampleEntries⟩, by cbv, fun p hp => ?_,
    fun es hperm => ?_⟩
  · exact ((hfolder _ hnode).2 isListable_sampleEntries p).mp hp
  · exact horder _ (.single (.within [] [0x73] [] (.entries hperm)))

end FileSystem

end TextHygiene
