import TextHygiene.Proofs.Lines
import TextHygiene.Proofs.Trees
import TextHygiene.Tree.Edit

/-! Creating a file in a tree. Every other location keeps what it had, as far as a walk can tell, so
that a path on which nothing is missing leads where it led before. The path of the file leads to the
file. -/

namespace TextHygiene

theorem Path.slash_notMem_of_mem_names (p : Path) {n : Name} (h : n ∈ p.names) :
    Byte.slash ∉ n := by
  rw [Path.names, List.mem_append] at h
  rcases h with h | h
  · exact Bytes.notMem_of_mem_split (List.mem_filter.mp h).1
  · split at h
    · rw [List.mem_singleton.mp h]
      exact List.not_mem_nil
    · cases h

namespace Node

/-- A node without its entries, if it is a folder. -/
def bare : Node → Node
  | folder _ => folder []
  | n => n

theorem eq_of_bare_eq {n n' : Node} (h : n'.bare = n.bare) (hleaf : n.isFolder = false) :
    n' = n := by
  cases n with
  | folder es => cases hleaf
  | file content => cases n' <;> cases h; rfl
  | link target => cases n' <;> cases h; rfl

/-- A location where a file may be written: in a folder, and free or taken by a file. -/
inductive IsPlace : Node → Location → Prop
  | entry {es : List (Name × Node)} {name : Name} (proper : name.IsProper)
      (free : ∀ n, es.lookup name = some n → ∃ content, n = file content) :
      IsPlace (folder es) [name]
  | within {es : List (Name × Node)} {name : Name} {n : Node} {rest : Location}
      (found : es.lookup name = some n) (place : IsPlace n rest) :
      IsPlace (folder es) (name :: rest)

/-! ## Entries -/

theorem lookup_putEntry (name key : Name) (n : Node) (es : List (Name × Node)) :
    (putEntry name n es).lookup key = if key = name then some n else es.lookup key := by
  have hcons : ∀ (e : Name × Node) (rest : List (Name × Node)),
      (e :: rest).lookup key = if key = e.1 then some e.2 else rest.lookup key := fun e rest => by
    by_cases h : key = e.1
    · rw [List.lookup_cons, beq_iff_eq.mpr h, if_pos h]
    · rw [List.lookup_cons, beq_false_of_ne h, if_neg h]
  induction es with
  | nil => rw [putEntry, hcons, List.lookup_nil]
  | cons e rest ih =>
    rw [putEntry]
    split
    · rename_i heq
      rw [hcons, hcons, heq]
      split <;> rfl
    · rename_i hne
      rw [hcons, ih, hcons]
      split
      · rename_i heq
        rw [if_neg (heq ▸ hne)]
      · rfl

theorem putEntry_putEntry (name : Name) (n n' : Node) (es : List (Name × Node)) :
    putEntry name n' (putEntry name n es) = putEntry name n' es := by
  induction es with
  | nil => simp [putEntry]
  | cons e rest ih => by_cases h : e.1 = name <;> simp [putEntry, h, ih]

theorem mem_putEntry {name : Name} {n : Node} {es : List (Name × Node)} {e : Name × Node}
    (h : e ∈ putEntry name n es) : e = (name, n) ∨ e ∈ es := by
  induction es with
  | nil => exact .inl (List.mem_singleton.mp h)
  | cons first rest ih =>
    rw [putEntry] at h
    split at h
    · exact (List.mem_cons.mp h).imp_right (List.mem_cons_of_mem _)
    · rcases List.mem_cons.mp h with rfl | h
      · exact .inr List.mem_cons_self
      · exact (ih h).imp_right (List.mem_cons_of_mem _)

theorem nodup_putEntry {name : Name} {n : Node} {es : List (Name × Node)}
    (h : (es.map Prod.fst).Nodup) : ((putEntry name n es).map Prod.fst).Nodup := by
  induction es with
  | nil => simp [putEntry]
  | cons first rest ih =>
    rw [List.map_cons, List.nodup_cons] at h
    rw [putEntry]
    split
    · rename_i heq
      exact List.nodup_cons.mpr ⟨heq ▸ h.1, h.2⟩
    · rename_i hne
      refine List.nodup_cons.mpr ⟨fun hmem => ?_, ih h.2⟩
      obtain ⟨e, he, heq⟩ := List.mem_map.mp hmem
      rcases mem_putEntry he with rfl | he
      · exact hne heq.symm
      · exact h.1 (heq ▸ List.mem_map_of_mem he)

theorem wellFormed_putEntry {name : Name} {n : Node} {es : List (Name × Node)}
    (h : (folder es).WellFormed) (hname : name.IsProper) (hn : n.WellFormed) :
    (folder (putEntry name n es)).WellFormed := by
  refine wellFormed_folder_iff.mpr ⟨nodup_putEntry (wellFormed_folder_iff.mp h).1, fun e he => ?_⟩
  rcases mem_putEntry he with rfl | he
  · exact ⟨hname, hn⟩
  · exact h.of_mem he

theorem put_cons {es : List (Name × Node)} {name : Name} {n : Node} {rest : Location}
    (hfound : es.lookup name = some n) (hrest : rest ≠ []) (new : Node) :
    (folder es).put (name :: rest) new = folder (putEntry name (n.put rest new) es) := by
  obtain ⟨next, rest, rfl⟩ := List.exists_cons_of_ne_nil hrest
  rw [put, hfound]
  exact List.cons_ne_nil next rest

/-! ## Moves -/

theorem at?_concat {root : Node} {loc : Location} {es : List (Name × Node)}
    (h : root.at? loc = some (folder es)) (name : Name) :
    root.at? (loc ++ [name]) = es.lookup name := by
  rw [at?_append, h, Option.bind_some, at?]
  cases es.lookup name with
  | none => rfl
  | some n => exact at?_nil n

/-- A move tells no more of a folder and of its entry than what they are without their entries. -/
theorem move_eq (root : Node) (loc : Location) (name : Name) :
    root.move loc name =
      match (root.at? loc).map bare with
      | some (folder _) =>
        if name = [] ∨ name = Name.here then .ok (.to loc)
        else if name = Name.parent then .ok (.to loc.dropLast)
        else if Name.maxLength < name.length then .error .nameTooLong
        else match (root.at? (loc ++ [name])).map bare with
          | none => .ok .absent
          | some (link target) => .ok (.link target)
          | some _ => .ok (.to (loc ++ [name]))
      | _ => .error .notADirectory := by
  rw [move]
  cases hloc : root.at? loc with
  | none => rfl
  | some n =>
    cases n with
    | file content => rfl
    | link target => rfl
    | folder es =>
      rw [at?_concat hloc]
      dsimp only [Option.map_some, bare]
      cases es.lookup name with
      | none => rfl
      | some next => cases next <;> rfl

/-! ## The tree with a file in its place -/

namespace IsPlace

variable {root : Node} {place : Location}

theorem ne_nil (h : IsPlace root place) : place ≠ [] := by
  cases h <;> exact List.cons_ne_nil _ _

theorem of_at? {es : List (Name × Node)} {name : Name} (hfolder : root.at? place = some (folder es))
    (hproper : name.IsProper)
    (hfree : ∀ n, es.lookup name = some n → ∃ content, n = file content) :
    IsPlace root (place ++ [name]) := by
  induction place generalizing root with
  | nil =>
    obtain rfl := Option.some.inj (at?_nil root ▸ hfolder)
    exact .entry hproper hfree
  | cons first rest ih =>
    obtain ⟨es', next, rfl, hnext, hrest⟩ := at?_cons_eq_some_iff.mp hfolder
    exact .within hnext (ih hrest)

theorem at?_put_self (h : IsPlace root place) (new : Node) :
    (root.put place new).at? place = some new := by
  induction h with
  | entry => simp [put, at?, lookup_putEntry]
  | within found place ih => simpa [put_cons found place.ne_nil, at?, lookup_putEntry] using ih

theorem put_put (h : IsPlace root place) (old new : Node) :
    (root.put place old).put place new = root.put place new := by
  induction h with
  | entry => simp [put, putEntry_putEntry]
  | within found place ih =>
    rw [put_cons found place.ne_nil, put_cons (by rw [lookup_putEntry, if_pos rfl]) place.ne_nil,
      ih, putEntry_putEntry, put_cons found place.ne_nil]

theorem wellFormed_put (h : IsPlace root place) (hroot : root.WellFormed) (content : Bytes) :
    (root.put place (file content)).WellFormed := by
  induction h with
  | entry proper => exact wellFormed_putEntry hroot proper trivial
  | within found place ih =>
    obtain ⟨hname, hn⟩ := hroot.of_lookup found
    rw [put_cons found place.ne_nil]
    exact wellFormed_putEntry hroot hname (ih hn)

/-- What is put in a place changes no other location, but for the entries of the folders above. -/
theorem bare_at?_put (h : IsPlace root place) (content : Bytes) {loc : Location}
    (hloc : loc ≠ place) :
    ((root.put place (file content)).at? loc).map bare = (root.at? loc).map bare := by
  induction h generalizing loc with
  | @entry es name proper free =>
    cases loc with
    | nil => rfl
    | cons key below =>
      rw [put, at?, at?, lookup_putEntry]
      split
      · rename_i heq
        have hbelow : below ≠ [] := fun hnil => hloc (by rw [heq, hnil])
        obtain ⟨next, below, rfl⟩ := List.exists_cons_of_ne_nil hbelow
        cases hlookup : es.lookup key with
        | none => rfl
        | some n =>
          obtain ⟨old, rfl⟩ := free n (heq ▸ hlookup)
          rfl
      · rfl
  | @within es name n rest found place ih =>
    rw [put_cons found place.ne_nil]
    cases loc with
    | nil => rw [at?_nil, at?_nil]; rfl
    | cons key below =>
      rw [at?, at?, lookup_putEntry]
      split
      · rename_i heq
        rw [heq, found]
        exact ih fun hbelow => hloc (by rw [heq, hbelow])
      · rfl

theorem at?_eq_none_or_file (h : IsPlace root place) :
    root.at? place = none ∨ ∃ content, root.at? place = some (file content) := by
  induction h with
  | @entry es name proper free =>
    cases hlookup : es.lookup name with
    | none => simp [at?, hlookup]
    | some n =>
      obtain ⟨content, rfl⟩ := free n hlookup
      simp [at?, hlookup]
  | within found place ih => simpa [at?, found] using ih

theorem ne_place_of_at? (h : IsPlace root place) {loc : Location} {n : Node}
    (hn : root.at? loc = some n) (hother : ∀ content, n ≠ file content) : loc ≠ place := by
  rintro rfl
  obtain hnone | ⟨old, hfile⟩ := h.at?_eq_none_or_file
  · cases hnone.symm.trans hn
  · exact hother old (Option.some.inj (hn.symm.trans hfile))

theorem exists_at?_put (h : IsPlace root place) (content : Bytes) {loc : Location}
    (hloc : loc ≠ place) {n : Node} (hn : root.at? loc = some n) :
    ∃ n', (root.put place (file content)).at? loc = some n' ∧ n'.bare = n.bare := by
  have hbare := h.bare_at?_put content hloc
  rw [hn] at hbare
  exact Option.map_eq_some_iff.mp hbare

/-- What is no folder stays as it is elsewhere. -/
theorem at?_put_of_ne (h : IsPlace root place) (content : Bytes) {loc : Location}
    (hloc : loc ≠ place) {n : Node} (hn : root.at? loc = some n) (hleaf : n.isFolder = false) :
    (root.put place (file content)).at? loc = some n := by
  obtain ⟨n', hn', hbare⟩ := h.exists_at?_put content hloc hn
  rw [hn', eq_of_bare_eq hbare hleaf]

/-- A file stays a file. -/
theorem exists_file_put (h : IsPlace root place) (content : Bytes) {loc : Location} {old : Bytes}
    (hfile : root.at? loc = some (file old)) :
    ∃ new, (root.put place (file content)).at? loc = some (file new) := by
  by_cases hloc : loc = place
  · exact ⟨content, hloc ▸ h.at?_put_self _⟩
  · exact ⟨old, h.at?_put_of_ne content hloc hfile rfl⟩

/-- A folder stays a folder. -/
theorem exists_folder_put (h : IsPlace root place) (content : Bytes) {loc : Location}
    {es : List (Name × Node)} (hfolder : root.at? loc = some (folder es)) :
    ∃ es', (root.put place (file content)).at? loc = some (folder es') := by
  have hloc : loc ≠ place := h.ne_place_of_at? hfolder fun _ heq => by cases heq
  obtain ⟨n, hn, hbare⟩ := h.exists_at?_put content hloc hfolder
  cases n <;> cases hbare
  exact ⟨_, hn⟩

/-! ## Walks -/

variable (h : IsPlace root place) (content : Bytes)
include h

/-- A name that is there leads to where it led. -/
theorem move_put {loc : Location} {name : Name} (hthere : root.move loc name ≠ .ok .absent) :
    (root.put place (file content)).move loc name = root.move loc name := by
  by_cases hself : loc = place
  · rw [move, move, hself, h.at?_put_self]
    obtain hnone | ⟨old, hfile⟩ := h.at?_eq_none_or_file
    · rw [hnone]
    · rw [hfile]
  rw [move_eq, move_eq, h.bare_at?_put content hself]
  by_cases hnext : loc ++ [name] = place
  · rw [move_eq, hnext] at hthere
    rw [hnext, h.at?_put_self]
    obtain hnone | ⟨old, hfile⟩ := h.at?_eq_none_or_file
    · rw [hnone] at hthere ⊢
      split
      · rename_i hfolder
        simp only [hfolder] at hthere
        split_ifs at hthere ⊢
        · rfl
        · rfl
        · rfl
        · exact absurd rfl hthere
      · rfl
    · rw [hfile]
      rfl
  · rw [h.bare_at?_put content hnext]

/-- A walk that misses nothing on its way is not changed. -/
theorem walk_put {loc : Location} {names : List Name}
    (hthere : root.walk loc names ≠ .error .notFound) :
    (root.put place (file content)).walk loc names = root.walk loc names := by
  induction names generalizing loc with
  | nil => rfl
  | cons name rest ih =>
    have hmove : root.move loc name ≠ .ok .absent := fun hmove => hthere (by rw [walk, hmove])
    rw [walk, walk, h.move_put content hmove]
    cases hm : root.move loc name with
    | error e => rfl
    | ok m =>
      rcases m with next | target | _
      · refine ih fun hrest => hthere ?_
        rw [walk, hm]
        exact hrest
      · rfl
      · rfl

theorem resolve_put {links : Nat} {loc : Location} {names : List Name}
    (hthere : root.resolve links loc names ≠ .error .notFound) :
    (root.put place (file content)).resolve links loc names = root.resolve links loc names := by
  have hwalk : ∀ {links : Nat} {loc : Location} {names : List Name},
      root.resolve links loc names ≠ .error .notFound → root.walk loc names ≠ .error .notFound :=
    fun hthere hwalk => hthere (by rw [resolve, hwalk])
  induction links generalizing loc names with
  | zero => rw [resolve, resolve, h.walk_put content (hwalk hthere)]
  | succ links ih =>
    rw [resolve, resolve, h.walk_put content (hwalk hthere)]
    rw [resolve] at hthere
    split
    · rfl
    · rfl
    · rename_i hw
      rw [hw] at hthere
      exact ih hthere

end IsPlace

/-! ## Aiming at a place -/

variable {root : Node} {loc : Location} {names : List Name}

/-- Going to a name that is no dot name, in a folder. -/
theorem move_of_folder {es : List (Name × Node)} {name : Name}
    (hfolder : root.at? loc = some (folder es))
    (hname : ¬(name = [] ∨ name = Name.here ∨ name = Name.parent)) :
    root.move loc name =
      if Name.maxLength < name.length then .error .nameTooLong
      else match es.lookup name with
        | none => .ok .absent
        | some (link target) => .ok (.link target)
        | some _ => .ok (.to (loc ++ [name])) := by
  rw [not_or, not_or] at hname
  obtain ⟨hempty, hhere, hparent⟩ := hname
  rw [move, hfolder]
  exact (if_neg (not_or.mpr ⟨hempty, hhere⟩)).trans (if_neg hparent)

/-- A name that is free in a folder, or taken by a file, makes a place, and leads to what is put
there. -/
theorem isPlace_concat {es : List (Name × Node)} {name : Name}
    (hfolder : root.at? loc = some (folder es))
    (hname : ¬(name = [] ∨ name = Name.here ∨ name = Name.parent)) (hslash : Byte.slash ∉ name)
    (hshort : ¬Name.maxLength < name.length)
    (hfree : ∀ n, es.lookup name = some n → ∃ content, n = file content) :
    IsPlace root (loc ++ [name]) ∧ ∀ content,
      (root.put (loc ++ [name]) (file content)).walk loc [name] =
        .ok (.arrived (loc ++ [name])) := by
  have hproper : name.IsProper := by
    rw [not_or, not_or] at hname
    exact ⟨hname.1, hslash, hname.2⟩
  have hplace : IsPlace root (loc ++ [name]) := .of_at? hfolder hproper hfree
  refine ⟨hplace, fun content => ?_⟩
  have hself := hplace.at?_put_self (file content)
  obtain ⟨es', hfolder'⟩ := exists_folder_of_at?_append hself
  rw [at?_concat hfolder'] at hself
  rw [walk, move_of_folder hfolder' hname, if_neg hshort, hself]
  rfl

/-- An aim that stops at a link stops where a walk does. -/
theorem aim_eq_link {loc' : Location} {target : Path} {rest : List Name}
    (h : root.aim loc names = .ok (.link loc' target rest)) :
    root.walk loc names = .ok (.link loc' target rest) ∧ ∀ n ∈ rest, n ∈ names := by
  fun_induction aim root loc names with
  -- A link at the last name, a link before it, and a name that is gone through.
  | case6 loc es hfolder name hname target' hmove =>
    cases h
    exact ⟨by rw [walk, hmove], fun n hn => absurd hn List.not_mem_nil⟩
  | case11 loc es hfolder name rest' h1 h2 target' hmove =>
    cases h
    exact ⟨by rw [walk, hmove], fun n hn => List.mem_cons_of_mem _ hn⟩
  | case12 loc es hfolder name rest' h1 h2 next hmove ih =>
    obtain ⟨hwalk, hrest⟩ := ih h
    refine ⟨?_, fun n hn => List.mem_cons_of_mem _ (hrest n hn)⟩
    rw [walk, hmove]
    exact hwalk
  | _ => cases h

/-- An aim at a place is a walk that arrives there once there is a file. -/
theorem aim_eq_place {place : Location} (hnames : ∀ n ∈ names, Byte.slash ∉ n)
    (h : root.aim loc names = .ok (.place place)) :
    IsPlace root place ∧
      ∀ content, (root.put place (file content)).walk loc names = .ok (.arrived place) := by
  fun_induction aim root loc names with
  -- A last name that is free, one that leads to a file, and a name that is gone through.
  | case5 loc es hfolder name hname hmove =>
    cases h
    rw [move_of_folder hfolder hname] at hmove
    split_ifs at hmove with hlong
    split at hmove
    · rename_i hnone
      refine isPlace_concat hfolder hname (hnames name (by simp)) hlong fun n hn => ?_
      rw [hnone] at hn
      cases hn
    · cases hmove
    · cases hmove
  | case7 loc es hfolder name hname next hmove old hfile =>
    cases h
    rw [move_of_folder hfolder hname] at hmove
    split_ifs at hmove with hlong
    split at hmove
    · cases hmove
    · cases hmove
    · cases hmove
      rw [at?_concat hfolder] at hfile
      refine isPlace_concat hfolder hname (hnames name (by simp)) hlong fun n hn => ⟨old, ?_⟩
      exact Option.some.inj (hn.symm.trans hfile)
  | case12 loc es hfolder name rest h1 h2 next hmove ih =>
    obtain ⟨hplace, hwalk⟩ := ih (fun n hn => hnames n (List.mem_cons_of_mem _ hn)) h
    refine ⟨hplace, fun content => ?_⟩
    rw [walk, hplace.move_put content (by rw [hmove]; exact fun h => by cases h), hmove]
    exact hwalk content
  | _ => cases h

/-- A path that may be opened for writing has a place for its file, and leads to the file then. -/
theorem place_eq_ok {links : Nat} {place : Location} (hnames : ∀ n ∈ names, Byte.slash ∉ n)
    (h : root.place links loc names = .ok place) :
    IsPlace root place ∧
      ∀ content, (root.put place (file content)).resolve links loc names = .ok place := by
  fun_induction Node.place root links loc names with
  | case2 links loc names next haim =>
    cases h
    obtain ⟨hplace, hwalk⟩ := aim_eq_place hnames haim
    exact ⟨hplace, fun content => by rw [resolve, hwalk content]⟩
  | case4 loc names next target rest haim links ih =>
    obtain ⟨hwalk, hrest⟩ := aim_eq_link haim
    have hnext : ∀ n ∈ target.names ++ rest, Byte.slash ∉ n := by
      rw [List.forall_mem_append]
      exact ⟨fun n => target.slash_notMem_of_mem_names, fun n hn => hnames n (hrest n hn)⟩
    obtain ⟨hplace, hresolve⟩ := ih hnext h
    refine ⟨hplace, fun content => ?_⟩
    have hthere : root.walk loc names ≠ .error .notFound := by
      rw [hwalk]
      exact fun h => by cases h
    rw [resolve, hplace.walk_put content hthere, hwalk]
    exact hresolve content
  | _ => cases h

end Node

namespace FileSystem

variable {fs : FileSystem} {place : Location} {p : Path}

/-- Where a file is created there is a place for it, and its path leads to the file then. -/
theorem target_eq_ok (h : fs.target p = .ok place) :
    fs.root.IsPlace place ∧
      ∀ content, (fs.putFile place content).node? p = .ok (.file content) := by
  have hplace : refusal? p = none ∧
      fs.root.place Node.maxLinks (fs.base p) p.names = .ok place := by
    rw [target] at h
    split at h
    · cases h
    · rename_i hrefusal
      split at h
      · cases h
      · rename_i loc hloc
        split at h <;> cases h
        exact ⟨hrefusal, hloc⟩
  obtain ⟨hrefusal, hplace⟩ := hplace
  obtain ⟨hplace, hresolve⟩ := Node.place_eq_ok (fun n => p.slash_notMem_of_mem_names) hplace
  refine ⟨hplace, fun content => node?_eq_ok_iff.mpr ⟨place, ?_, hplace.at?_put_self _⟩⟩
  rw [locate, hrefusal]
  exact hresolve content

variable (hplace : fs.root.IsPlace place) (content : Bytes)
include hplace

/-- A path on which nothing is missing leads to where it led. -/
theorem locate_putFile (hthere : fs.locate p ≠ .error .notFound) :
    (fs.putFile place content).locate p = fs.locate p := by
  rw [locate] at hthere
  rw [locate, locate]
  split
  · rfl
  · rename_i hrefusal
    rw [hrefusal] at hthere
    exact hplace.resolve_put content hthere

/-- So what the path leads to is as it was, but for the entries of a folder, unless it is the
file. -/
theorem bare_reached?_putFile (hthere : fs.locate p ≠ .error .notFound)
    (hother : fs.locate p ≠ .ok place) :
    ((fs.putFile place content).reached? p).map (·.map Node.bare id) =
      (fs.reached? p).map (·.map Node.bare id) := by
  rw [reached?, reached?, locate_putFile hplace content hthere]
  cases hlocate : fs.locate p with
  | error e => rfl
  | ok loc =>
    have hbare := hplace.bare_at?_put content fun heq => hother (heq ▸ hlocate)
    dsimp only [putFile]
    generalize (fs.root.put place (.file content)).at? loc = n', fs.root.at? loc = n at hbare
    cases n with
    | none =>
      obtain rfl := Option.map_eq_none_iff.mp hbare
      rfl
    | some n =>
      obtain ⟨n', rfl, hn⟩ := Option.map_eq_some_iff.mp hbare
      exact congrArg (fun m => Except.ok (m, fs.disk loc)) hn

theorem wellFormed_putFile (hfs : fs.root.WellFormed) :
    (fs.putFile place content).root.WellFormed :=
  hplace.wellFormed_put hfs content

theorem putFile_putFile (content' : Bytes) :
    (fs.putFile place content).putFile place content' = fs.putFile place content' := by
  rw [putFile, putFile, putFile, hplace.put_put]

end FileSystem

end TextHygiene
