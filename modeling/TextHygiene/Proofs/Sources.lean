import Mathlib.Data.List.Nodup
import Mathlib.Data.List.TakeWhile
import TextHygiene.Discovery
import TextHygiene.Proofs.Trees
import TextHygiene.Proofs.Utf8RoundTrip

/-! The sources below a folder. They are the files that are reached through folders alone, by names
that are not hidden and with a last name that is wanted; each of them is found once. -/

namespace TextHygiene

namespace Name

/-- A text that begins with a dot. -/
def IsDotText (n : Name) : Prop := ∃ text, n = Utf8.encode ('.' :: text)

/-- Something, a dot, and an extension that is listed, the case of ASCII letters aside. -/
def HasExtension (extensions : List String) (n : Name) : Prop :=
  ∃ stem ext want, stem ≠ [] ∧ n = stem ++ Byte.dot :: Utf8.encode ext ∧ '.' ∉ ext ∧
    want ∈ extensions ∧ want.toList.map Char.toLower = ext.map Char.toLower

theorem dot_mem_encode_iff {cs : List Char} : Byte.dot ∈ Utf8.encode cs ↔ '.' ∈ cs :=
  Utf8.mem_encode_iff (by decide)

theorem isHidden_iff {n : Name} : n.isHidden = true ↔ n.IsDotText := by
  rw [isHidden, Bool.and_eq_true, decide_eq_true_eq, Utf8.isSome_decode?_iff]
  constructor
  · rintro ⟨hhead, cs, rfl⟩
    cases cs with
    | nil => cases hhead
    | cons c text =>
      have hne : String.utf8EncodeChar c ≠ [] := by
        rw [← List.length_pos_iff, String.length_utf8EncodeChar]
        exact c.utf8Size_pos
      have hmem : Byte.dot ∈ Utf8.encode [c] := by
        rw [Utf8.encode, List.flatMap_cons, List.head?_append_of_ne_nil _ hne] at hhead
        rw [Utf8.encode, List.flatMap_singleton]
        exact List.mem_of_mem_head? hhead
      obtain rfl := List.mem_singleton.mp (dot_mem_encode_iff.mp hmem)
      exact ⟨text, rfl⟩
  · rintro ⟨text, rfl⟩
    exact ⟨rfl, _, rfl⟩

theorem extension?_append {stem ext : Bytes} (hdot : Byte.dot ∉ ext) :
    extension? (stem ++ Byte.dot :: ext) = if stem.isEmpty then none else some ext := by
  have hbefore : ∀ b ∈ ext.reverse, decide (b ≠ Byte.dot) = true := fun b hb =>
    decide_eq_true fun heq => hdot (heq ▸ List.mem_reverse.mp hb)
  have hreverse : (stem ++ Byte.dot :: ext).reverse = ext.reverse ++ Byte.dot :: stem.reverse := by
    simp
  have htail :
      (ext.reverse ++ Byte.dot :: stem.reverse).takeWhile (· ≠ Byte.dot) = ext.reverse := by
    rw [List.takeWhile_append_of_pos hbefore, List.takeWhile_cons_of_neg (by decide),
      List.append_nil]
  simp only [extension?, hreverse, htail, List.drop_length_add_append, List.drop_succ_cons,
    List.drop_zero, List.isEmpty_reverse, List.reverse_reverse]

theorem extension?_of_notMem {n : Name} (hdot : Byte.dot ∉ n) : n.extension? = none := by
  have htail : n.reverse.takeWhile (· ≠ Byte.dot) = n.reverse :=
    List.takeWhile_eq_self_iff.mpr fun b hb =>
      decide_eq_true fun heq => hdot (heq ▸ List.mem_reverse.mp hb)
  have hdrop : n.reverse.drop (n.reverse.length + 1) = [] :=
    List.drop_of_length_le (Nat.le_succ _)
  simp only [extension?, htail, hdrop, List.isEmpty_nil, if_true]

theorem extension?_eq_some_iff {n : Name} {ext : Bytes} :
    n.extension? = some ext ↔ ∃ stem, stem ≠ [] ∧ n = stem ++ Byte.dot :: ext ∧ Byte.dot ∉ ext := by
  constructor
  · intro h
    by_cases hmem : Byte.dot ∈ n
    · obtain ⟨back, front, hsplit, hback⟩ := List.eq_append_cons_of_mem (List.mem_reverse.mpr hmem)
      have hn : n = front.reverse ++ Byte.dot :: back.reverse := by
        rw [← List.reverse_reverse n, hsplit]
        simp
      have hdot : Byte.dot ∉ back.reverse := fun hb => hback (List.mem_reverse.mp hb)
      rw [hn, extension?_append hdot] at h
      split at h
      · cases h
      · rename_i hstem
        obtain rfl := Option.some.inj h
        exact ⟨front.reverse, fun hnil => hstem (hnil ▸ rfl), hn, hdot⟩
    · rw [extension?_of_notMem hmem] at h
      cases h
  · rintro ⟨stem, hstem, rfl, hdot⟩
    rw [extension?_append hdot, if_neg fun hnil => hstem (List.isEmpty_iff.mp hnil)]

theorem hasExtension_iff {extensions : List String} {n : Name} :
    n.hasExtension extensions = true ↔ n.HasExtension extensions := by
  have hsome : ∀ {ext}, n.extension?.bind Utf8.decode? = some ext ↔
      ∃ stem, stem ≠ [] ∧ n = stem ++ Byte.dot :: Utf8.encode ext ∧ '.' ∉ ext := by
    intro ext
    rw [Option.bind_eq_some_iff]
    simp only [extension?_eq_some_iff, Utf8.decode?_eq_some_iff]
    constructor
    · rintro ⟨_, ⟨stem, hstem, hn, hdot⟩, rfl⟩
      exact ⟨stem, hstem, hn, fun hmem => hdot (dot_mem_encode_iff.mpr hmem)⟩
    · rintro ⟨stem, hstem, hn, hdot⟩
      exact ⟨_, ⟨stem, hstem, hn, fun hmem => hdot (dot_mem_encode_iff.mp hmem)⟩, rfl⟩
  rw [hasExtension]
  constructor
  · intro h
    split at h
    · cases h
    · rename_i ext hext
      obtain ⟨stem, hstem, hn, hdot⟩ := hsome.mp hext
      obtain ⟨want, hwant, heq⟩ := List.any_eq_true.mp h
      exact ⟨stem, ext, want, hstem, hn, hdot, hwant, of_decide_eq_true heq⟩
  · rintro ⟨stem, ext, want, hstem, hn, hdot, hwant, heq⟩
    rw [hsome.mpr ⟨stem, hstem, hn, hdot⟩]
    exact List.any_eq_true.mpr ⟨want, hwant, decide_eq_true heq⟩

end Name

namespace Path

theorem length_le_length_join (p : Path) (n : Name) : p.length ≤ (p.join n).length := by
  rw [join]
  split <;> simp

theorem length_le_length_below (p : Path) (loc : Location) : p.length ≤ (loc.below p).length := by
  induction loc generalizing p with
  | nil => exact Nat.le_refl _
  | cons name rest ih => exact Nat.le_trans (p.length_le_length_join name) (ih _)

/-- A path below one that cannot be listed cannot be listed either. -/
theorem isTooLong_below {p : Path} (h : p.isTooLong = true) (loc : Location) :
    (loc.below p).isTooLong = true := by
  have hlen := p.length_le_length_below loc
  simp only [isTooLong, decide_eq_true_eq] at h ⊢
  omega

end Path

namespace Node

/-- The sources of one entry of a folder. -/
def entrySources (wanted : Name → Bool) (path : Path) : Name × Node → List Location
  | (name, n) =>
    if name.isHidden then []
    else
      match n with
      | file _ => if wanted name then [[name]] else []
      | link _ => []
      | folder es => ((folder es).sources wanted (path.join name)).map (name :: ·)

variable {wanted : Name → Bool} {path : Path} {n : Node} {es : List (Name × Node)} {loc : Location}

theorem sourcesIn_eq_flatMap :
    sourcesIn wanted path es = es.flatMap (entrySources wanted path) := by
  induction es with
  | nil => rfl
  | cons e rest ih =>
    obtain ⟨name, n⟩ := e
    rw [List.flatMap_cons, ← ih]
    cases n <;> rfl

theorem sources_folder : (folder es).sources wanted path =
    if path.isTooLong then [] else es.flatMap (entrySources wanted path) := by
  rw [sources, sourcesIn_eq_flatMap]

/-- A file is its own source when it is wanted; other nodes have the sources below them. -/
theorem mem_entrySources_iff {name : Name} :
    loc ∈ entrySources wanted path (name, n) ↔ name.isHidden = false ∧
      ((∃ content, n = file content ∧ wanted name = true ∧ loc = [name]) ∨
        ∃ rest, loc = name :: rest ∧ rest ∈ n.sources wanted (path.join name)) := by
  cases hidden : name.isHidden with
  | true => simp [entrySources, hidden]
  | false =>
    cases n with
    | file content => simp [entrySources, hidden, sources]
    | link target => simp [entrySources, hidden, sources]
    | folder es =>
      simp only [entrySources, hidden, Bool.false_eq_true, if_false, List.mem_map, true_and,
        reduceCtorEq, false_and, exists_false, false_or]
      exact exists_congr fun rest => by rw [and_comm, eq_comm]

theorem exists_cons_of_mem_entrySources {e : Name × Node} (h : loc ∈ entrySources wanted path e) :
    ∃ rest, loc = e.1 :: rest := by
  obtain ⟨-, ⟨_, -, -, heq⟩ | ⟨rest, heq, -⟩⟩ := mem_entrySources_iff.mp h
  · exact ⟨[], heq⟩
  · exact ⟨rest, heq⟩

theorem mem_sources_folder_iff : loc ∈ (folder es).sources wanted path ↔
    path.isTooLong = false ∧ ∃ e ∈ es, loc ∈ entrySources wanted path e := by
  rw [sources_folder]
  cases path.isTooLong with
  | true => simp
  | false => simp

theorem notMem_sources_nil : [] ∉ n.sources wanted path := by
  cases n with
  | folder es =>
    intro hmem
    obtain ⟨-, e, -, he⟩ := mem_sources_folder_iff.mp hmem
    obtain ⟨rest, hnil⟩ := exists_cons_of_mem_entrySources he
    cases hnil
  | file content => exact List.not_mem_nil
  | link target => exact List.not_mem_nil

/-- The sources of a well-formed tree. The folder that holds a source is one that can be listed. -/
theorem mem_sources_iff (hn : n.WellFormed) :
    loc ∈ n.sources wanted path ↔ (∃ content, n.at? loc = some (file content)) ∧
      (∀ name ∈ loc, name.isHidden = false) ∧
      ∃ front name, loc = front ++ [name] ∧ wanted name = true ∧
        (Location.below path front).isTooLong = false := by
  -- Induction on the location and not on the tree: each name of it enters one folder.
  induction loc generalizing n path with
  | nil => simp [notMem_sources_nil]
  | cons name rest ih =>
    constructor
    · intro hmem
      cases n with
      | file content => cases hmem
      | link target => cases hmem
      | folder es =>
        obtain ⟨hlisted, ⟨key, m⟩, he, hentry⟩ := mem_sources_folder_iff.mp hmem
        have hlookup := (lookup_eq_some_iff_mem (wellFormed_folder_iff.mp hn).1).mpr he
        obtain ⟨hvisible, ⟨content, rfl, hwanted, heq⟩ | ⟨rest, heq, hrest⟩⟩ :=
          mem_entrySources_iff.mp hentry
        · obtain ⟨rfl, rfl⟩ := List.cons.inj heq
          refine ⟨⟨content, at?_cons_eq_some_iff.mpr ⟨es, _, rfl, hlookup, rfl⟩⟩, ?_, [], name, rfl,
            hwanted, hlisted⟩
          exact List.forall_mem_singleton.mpr hvisible
        · obtain ⟨rfl, rfl⟩ := List.cons.inj heq
          obtain ⟨⟨content, hat⟩, hnames, front, last, rfl, hwanted, hshort⟩ :=
            (ih (hn.of_mem he).2).mp hrest
          exact ⟨⟨content, at?_cons_eq_some_iff.mpr ⟨es, m, rfl, hlookup, hat⟩⟩,
            List.forall_mem_cons.mpr ⟨hvisible, hnames⟩, name :: front, last, rfl, hwanted, hshort⟩
    · rintro ⟨⟨content, hat⟩, hnames, front, last, heq, hwanted, hshort⟩
      obtain ⟨es, m, rfl, hlookup, hrest⟩ := at?_cons_eq_some_iff.mp hat
      have hlisted : path.isTooLong = false := by
        by_contra hlong
        rw [Path.isTooLong_below (eq_true_of_ne_false hlong)] at hshort
        cases hshort
      have he := (lookup_eq_some_iff_mem (wellFormed_folder_iff.mp hn).1).mp hlookup
      obtain ⟨hvisible, hnames⟩ := List.forall_mem_cons.mp hnames
      refine mem_sources_folder_iff.mpr ⟨hlisted, _, he, mem_entrySources_iff.mpr ⟨hvisible, ?_⟩⟩
      cases front with
      | nil =>
        obtain ⟨rfl, rfl⟩ := List.cons.inj heq
        exact .inl ⟨content, Option.some.inj (at?_nil m ▸ hrest), hwanted, rfl⟩
      | cons first front =>
        obtain ⟨rfl, rfl⟩ := List.cons.inj heq
        exact .inr ⟨_, rfl, (ih (hn.of_mem he).2).mpr
          ⟨⟨content, hrest⟩, hnames, front, last, rfl, hwanted, hshort⟩⟩

/-! ## Each source once -/

theorem nodup_entrySources {name : Name} (h : ∀ path, (n.sources wanted path).Nodup) :
    (entrySources wanted path (name, n)).Nodup := by
  cases n with
  | file content =>
    rw [entrySources]
    split
    · exact List.nodup_nil
    · split
      · exact List.nodup_singleton [name]
      · exact List.nodup_nil
  | link target => simp [entrySources]
  | folder es =>
    rw [entrySources]
    split
    · exact List.nodup_nil
    · exact List.Nodup.map List.cons_injective (h _)

theorem nodup_flatMap_entrySources (hkeys : (es.map Prod.fst).Nodup)
    (h : ∀ e ∈ es, (entrySources wanted path e).Nodup) :
    (es.flatMap (entrySources wanted path)).Nodup := by
  refine List.nodup_flatMap.mpr ⟨h, (List.pairwise_map.mp hkeys).imp fun hne loc hmem hmem' => ?_⟩
  obtain ⟨rest, rfl⟩ := exists_cons_of_mem_entrySources hmem
  obtain ⟨rest', heq⟩ := exists_cons_of_mem_entrySources hmem'
  exact hne (List.cons.inj heq).1

-- The entries of one folder differ in their names, and with them the locations that they give.
mutual

theorem nodup_sources (wanted : Name → Bool) :
    (path : Path) → (n : Node) → n.WellFormed → (n.sources wanted path).Nodup
  | path, folder es, hn => by
    rw [sources_folder]
    split
    · exact List.nodup_nil
    · exact nodup_flatMap_entrySources hn.1 (nodup_entries wanted path es hn.2)
  | _, file _, _ => List.nodup_nil
  | _, link _, _ => List.nodup_nil
termination_by structural _ n => n

theorem nodup_entries (wanted : Name → Bool) : (path : Path) → (es : List (Name × Node)) →
    EntriesWellFormed es → ∀ e ∈ es, (entrySources wanted path e).Nodup
  | _, [], _ => fun _ hmem => absurd hmem List.not_mem_nil
  | path, (name, n) :: rest, hes => by
    rw [List.forall_mem_cons]
    exact ⟨nodup_entrySources fun path => nodup_sources wanted path n hes.2.1,
      nodup_entries wanted path rest hes.2.2⟩
termination_by structural _ es => es

end

/-! ## The order of entries -/

theorem Reordered.sources_perm {n' : Node} (h : Reordered n n') (path : Path) :
    (n.sources wanted path).Perm (n'.sources wanted path) := by
  induction h generalizing path with
  | refl => exact .refl _
  | entries hperm =>
    rw [sources_folder, sources_folder]
    split
    · exact .refl _
    · exact hperm.flatMap_right _
  | within front name back h ih =>
    rw [sources_folder, sources_folder]
    split
    · exact .refl _
    · rw [List.flatMap_append, List.flatMap_append, List.flatMap_cons, List.flatMap_cons]
      refine .append_left _ (.append_right _ ?_)
      obtain rfl | ⟨es, es', rfl, rfl⟩ := h.eq_or_folders
      · exact .refl _
      · rw [entrySources, entrySources]
        split
        · exact .refl _
        · exact (ih _).map _

end Node

end TextHygiene
