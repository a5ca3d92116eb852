import TextHygiene.Proofs.Creation
import TextHygiene.Proofs.DiscoveryExactness

/-! Where the paths lead that are found below a root: to a file, unless a path or a name in it is
too long, or has a zero byte. So nothing is missing on their way, and a file that is created takes
none of them away. -/

namespace TextHygiene

namespace Node

variable {root : Node} {loc mid : Location} {names rest : List Name} {links : Nat}

/-- A walk that goes on, or that stops at a link with more names to go. -/
theorem walk_append (root : Node) (loc : Location) (names rest : List Name) :
    root.walk loc (names ++ rest) =
      match root.walk loc names with
      | .error e => .error e
      | .ok (.arrived mid) => root.walk mid rest
      | .ok (.link mid target names') => .ok (.link mid target (names' ++ rest)) := by
  induction names generalizing loc with
  | nil => rfl
  | cons name names ih =>
    rw [List.cons_append, walk, walk]
    cases root.move loc name with
    | error e => rfl
    | ok m =>
      rcases m with next | target | _
      · exact ih next
      · rfl
      · rfl

/-- Once the first names are resolved, the others are, with what is left of the links. -/
theorem resolve_append (h : root.resolve links loc names = .ok mid) (rest : List Name) :
    ∃ left, root.resolve links loc (names ++ rest) = root.resolve left mid rest := by
  fun_induction resolve root links loc names with
  | case2 links loc names mid' hnames =>
    cases h
    refine ⟨links, ?_⟩
    rw [resolve, resolve, walk_append, hnames]
  | case4 loc names loc' target names' hnames links ih =>
    obtain ⟨left, hleft⟩ := ih h
    refine ⟨left, ?_⟩
    rw [resolve, walk_append, hnames, ← hleft, List.append_assoc]
  | _ => cases h

/-- A name that is empty leads to the folder where it stands. -/
theorem walk_empty_name {stop : Stop} (h : root.walk loc [[]] = .ok stop) :
    stop = .arrived loc := by
  rw [walk, move] at h
  cases hn : root.at? loc with
  | none => simp [hn] at h
  | some n => cases n <;> simp_all [walk]

/-- A slash at the end of a path makes no difference where it leads to anything. -/
theorem resolve_of_slash (h : root.resolve links loc (names ++ [[]]) = .ok mid) :
    root.resolve links loc names = .ok mid := by
  fun_induction resolve root links loc names with
  | case1 links loc names e hnames =>
    rw [resolve, walk_append, hnames] at h
    cases h
  | case2 links loc names mid' hnames =>
    rw [resolve, walk_append, hnames] at h
    dsimp only at h
    split at h
    · cases h
    · rename_i harrived
      cases walk_empty_name harrived
      exact h
    · rename_i hlink
      cases walk_empty_name hlink
  | case3 loc names loc' target names' hnames =>
    rw [resolve, walk_append, hnames] at h
    cases h
  | case4 loc names loc' target names' hnames links ih =>
    rw [resolve, walk_append, hnames] at h
    refine ih ?_
    rw [List.append_assoc]
    exact h

/-- A walk by names that are no dot names goes down the tree, if no name is too long. -/
theorem walk_down {n : Node} {content : Bytes} (hn : root.at? loc = some n)
    (hproper : ∀ name ∈ names, name.IsProper) (hfile : n.at? names = some (file content)) :
    root.walk loc names = .ok (.arrived (loc ++ names)) ∨
      root.walk loc names = .error .nameTooLong := by
  induction names generalizing loc n with
  | nil => exact .inl (by rw [List.append_nil]; rfl)
  | cons name rest ih =>
    obtain ⟨es, next, rfl, hlookup, hrest⟩ := at?_cons_eq_some_iff.mp hfile
    obtain ⟨⟨hempty, -, hdots⟩, hproper⟩ := List.forall_mem_cons.mp hproper
    have hnext : root.at? (loc ++ [name]) = some next := (at?_concat hn name).trans hlookup
    rw [walk, move_of_folder hn (by rw [not_or, not_or]; exact ⟨hempty, hdots⟩)]
    split_ifs with hlong
    · exact .inr rfl
    · have hmove := ih hnext hproper hrest
      rw [List.append_assoc, List.singleton_append] at hmove
      rw [hlookup]
      cases next with
      | file content => exact hmove
      | folder es => exact hmove
      | link target =>
        cases rest <;> cases hrest

end Node

namespace Path

theorem head?_below {p : Path} (hp : p ≠ []) (loc : Location) :
    (Location.below p loc).head? = p.head? := by
  induction loc generalizing p with
  | nil => rfl
  | cons name rest ih =>
    obtain ⟨b, bs, rfl⟩ := List.exists_cons_of_ne_nil hp
    have hjoin : ∃ tail, join (b :: bs) name = b :: tail := by
      rw [join]
      split
      · exact ⟨_, rfl⟩
      · exact ⟨_, rfl⟩
    obtain ⟨tail, htail⟩ := hjoin
    rw [Location.below, List.foldl_cons, ← Location.below, htail, ih (List.cons_ne_nil b tail)]
    rfl

end Path

namespace FileSystem

variable {fs : FileSystem} {extensions : List String} {root p : Path}

theorem refusal?_eq_some {e : IoError} (h : refusal? p = some e) :
    p = [] ∨ e = .nameTooLong ∨ e = .nulInPath := by
  rw [refusal?] at h
  split_ifs at h with hnul hempty hlong
  · exact .inr (.inr (Option.some.inj h).symm)
  · exact .inl hempty
  · exact .inr (.inl (Option.some.inj h).symm)

/-- A path that leads anywhere is not empty, and a slash at its end is of no matter. -/
theorem locate_eq_ok {loc : Location} (h : fs.locate root = .ok loc) :
    root ≠ [] ∧ fs.root.resolve Node.maxLinks (fs.base root) root.parts = .ok loc := by
  rw [locate] at h
  split at h
  · cases h
  · rename_i hrefusal
    refine ⟨fun hnil => ?_, ?_⟩
    · rw [hnil] at hrefusal
      cases hrefusal
    · rw [Path.names] at h
      split at h
      · exact Node.resolve_of_slash h
      · rwa [List.append_nil] at h

/-- The names of a file below a path lead on from where the path leads to. -/
theorem locate_below (hfs : fs.root.WellFormed) {loc below : Location} {n : Node} {content : Bytes}
    (hroot : fs.locate root = .ok loc) (hn : fs.root.at? loc = some n)
    (hfile : n.at? below = some (.file content)) (hbelow : below ≠ []) :
    fs.locate (Location.below root below) = .ok (loc ++ below) ∨
      fs.locate (Location.below root below) = .error .nameTooLong ∨
      fs.locate (Location.below root below) = .error .nulInPath := by
  obtain ⟨hne, hresolve⟩ := locate_eq_ok hroot
  have hproper := ((hfs.of_at? hn).2.of_at? hfile).1
  have hhead := Path.head?_below hne below
  rw [locate]
  split
  · rename_i e hrefusal
    obtain hnil | rfl | rfl := refusal?_eq_some hrefusal
    · rw [hnil] at hhead
      exact absurd (List.head?_eq_none_iff.mp hhead.symm) hne
    · exact .inr (.inl rfl)
    · exact .inr (.inr rfl)
  · obtain ⟨front, name, rfl⟩ := (List.eq_nil_or_concat' below).resolve_left hbelow
    have hbase : fs.base (Location.below root (front ++ [name])) = fs.base root := by
      rw [base, base, Path.isAbsolute, Path.isAbsolute, hhead]
    obtain ⟨left, hleft⟩ := Node.resolve_append hresolve (front ++ [name])
    rw [hbase, Path.names_below root hproper, hleft, Node.resolve]
    obtain harrived | hlong := Node.walk_down hn hproper hfile
    · rw [harrived]
      exact .inl rfl
    · rw [hlong]
      exact .inr (.inl rfl)

/-- A path that is found leads to a file, unless it cannot be opened for its text. -/
theorem locate_of_mem_discover (hfs : fs.root.WellFormed) (hp : p ∈ fs.discover extensions root) :
    (∃ loc content, fs.locate p = .ok loc ∧ fs.root.at? loc = some (.file content)) ∨
      fs.locate p = .error .nameTooLong ∨ fs.locate p = .error .nulInPath := by
  cases hnode : fs.node? root with
  | error e =>
    rw [discover, hnode] at hp
    cases hp
  | ok n =>
    obtain ⟨loc, hlocate, hn⟩ := node?_eq_ok_iff.mp hnode
    cases n with
    | file content =>
      rw [discover_file hnode, List.mem_singleton] at hp
      exact .inl ⟨loc, content, hp ▸ hlocate, hn⟩
    | link target =>
      rw [discover_link hnode] at hp
      cases hp
    | folder es =>
      obtain ⟨below, rfl, hsource, -⟩ := (mem_discover_folder_iff hfs hnode).mp hp
      obtain ⟨content, hfile⟩ := hsource.file
      obtain ⟨front, name, hbelow, -⟩ := hsource.extension
      have hne : below ≠ [] := hbelow ▸ List.concat_ne_nil name front
      obtain harrived | herror := locate_below hfs hlocate hn hfile hne
      · refine .inl ⟨_, content, harrived, ?_⟩
        rw [Node.at?_append, hn]
        exact hfile
      · exact .inr herror

theorem locate_ne_notFound_of_mem_discover (hfs : fs.root.WellFormed)
    (hp : p ∈ fs.discover extensions root) : fs.locate p ≠ .error .notFound := by
  obtain ⟨loc, content, harrived, -⟩ | hlong | hnul := locate_of_mem_discover hfs hp
  · rw [harrived]
    exact fun h => by cases h
  · rw [hlong]
    decide
  · rw [hnul]
    decide

/-! ## With one more file -/

section

variable {place : Location} (hfs : fs.root.WellFormed) (hplace : fs.root.IsPlace place)
  (content : Bytes)
include hfs hplace

/-- A file that is created, or written, takes away nothing that is found. -/
theorem mem_discover_putFile (hp : p ∈ fs.discover extensions root) :
    p ∈ (fs.putFile place content).discover extensions root := by
  cases hnode : fs.node? root with
  | error e =>
    rw [discover, hnode] at hp
    cases hp
  | ok n =>
    obtain ⟨loc, hlocate, hn⟩ := node?_eq_ok_iff.mp hnode
    have hthere : fs.locate root ≠ .error .notFound := by
      rw [hlocate]
      exact fun h => by cases h
    have hlocate' := (locate_putFile hplace content hthere).trans hlocate
    cases n with
    | file old =>
      obtain ⟨new, hnew⟩ := hplace.exists_file_put content hn
      rw [discover_file hnode] at hp
      rwa [discover_file (node?_eq_ok_iff.mpr ⟨loc, hlocate', hnew⟩)]
    | link target =>
      rw [discover_link hnode] at hp
      cases hp
    | folder es =>
      obtain ⟨es', hes'⟩ := hplace.exists_folder_put content hn
      have hnode' := node?_eq_ok_iff.mpr ⟨loc, hlocate', hes'⟩
      obtain ⟨below, rfl, hsource, hshort⟩ := (mem_discover_folder_iff hfs hnode).mp hp
      obtain ⟨old, hfile⟩ := hsource.file
      have hwhole : fs.root.at? (loc ++ below) = some (.file old) := by
        rw [Node.at?_append, hn]
        exact hfile
      obtain ⟨new, hnew⟩ := hplace.exists_file_put content hwhole
      rw [Node.at?_append, hes'] at hnew
      refine (mem_discover_folder_iff (wellFormed_putFile hplace content hfs) hnode').mpr
        ⟨below, rfl, ⟨⟨new, hnew⟩, ?_, hsource.visible, hsource.extension⟩, hshort⟩
      rintro front name rest rfl
      exact Node.exists_folder_of_at?_append hnew

/-- Where a file that is created adds nothing to what is found, the same is found in the same
order. -/
theorem discover_putFile_eq
    (hnew : ∀ p ∈ (fs.putFile place content).discover extensions root,
      p ∈ fs.discover extensions root) :
    (fs.putFile place content).discover extensions root = fs.discover extensions root := by
  have hsorted := pairwise_discover hfs extensions root
  have hsorted' := pairwise_discover (wellFormed_putFile hplace content hfs) extensions root
  have hnodup : ∀ {ps : List Path}, ps.Pairwise (fun p q => p.names < q.names) → ps.Nodup := by
    intro ps h
    refine h.imp ?_
    rintro p _ hlt rfl
    exact List.lt_irrefl _ hlt
  have hmem : ∀ p, p ∈ (fs.putFile place content).discover extensions root ↔
      p ∈ fs.discover extensions root := fun p =>
    ⟨hnew p, mem_discover_putFile hfs hplace content⟩
  refine List.Perm.eq_of_pairwise (fun p q _ _ hlt hgt => ?_) hsorted' hsorted
    ((List.perm_ext_iff_of_nodup (hnodup hsorted') (hnodup hsorted)).mpr hmem)
  exact absurd hgt (List.lt_asymm hlt)

end

end FileSystem

end TextHygiene
