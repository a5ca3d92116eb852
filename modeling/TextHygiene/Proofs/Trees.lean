import Mathlib.Data.List.Basic
import Mathlib.Logic.Relation
import TextHygiene.Tree.Resolve

/-! Well-formed trees. A name finds the one entry that has it, so that the order of the entries of
a folder decides neither where a path leads nor what a walk meets on its way. -/

namespace TextHygiene

namespace Name

/-- What a name in a folder looks like. -/
def IsProper (n : Name) : Prop := n ≠ [] ∧ Byte.slash ∉ n ∧ n ≠ here ∧ n ≠ parent

end Name

namespace Node

theorem entriesWellFormed_iff {es : List (Name × Node)} :
    EntriesWellFormed es ↔ ∀ e ∈ es, e.1.IsProper ∧ e.2.WellFormed := by
  induction es with
  | nil => simp [EntriesWellFormed]
  | cons e rest ih =>
    rw [EntriesWellFormed, ih, List.forall_mem_cons, Name.IsProper, ← and_assoc]

theorem wellFormed_folder_iff {es : List (Name × Node)} :
    (folder es).WellFormed ↔
      (es.map Prod.fst).Nodup ∧ ∀ e ∈ es, e.1.IsProper ∧ e.2.WellFormed := by
  rw [WellFormed, entriesWellFormed_iff]

theorem lookup_eq_some_iff_mem {es : List (Name × Node)} (hnodup : (es.map Prod.fst).Nodup)
    {name : Name} {n : Node} : es.lookup name = some n ↔ (name, n) ∈ es := by
  rw [List.lookup_eq_some_iff]
  constructor
  · rintro ⟨front, back, rfl, -⟩
    simp
  · intro hmem
    obtain ⟨front, back, rfl⟩ := List.append_of_mem hmem
    rw [List.map_append, List.map_cons, List.nodup_append] at hnodup
    refine ⟨front, back, rfl, fun e he => ?_⟩
    have hne := hnodup.2.2 e.1 (List.mem_map_of_mem he) name List.mem_cons_self
    simpa using hne.symm

@[simp] theorem at?_nil (n : Node) : n.at? [] = some n := by cases n <;> rfl

/-- What a walk meets below a folder is what it meets below one of the entries. -/
theorem at?_cons_eq_some_iff {n m : Node} {name : Name} {rest : Location} :
    n.at? (name :: rest) = some m ↔
      ∃ es next, n = folder es ∧ es.lookup name = some next ∧ next.at? rest = some m := by
  cases n with
  | folder es => simp [at?, Option.bind_eq_some_iff]
  | file content => simp [at?]
  | link target => simp [at?]

theorem at?_append (n : Node) (front loc : Location) :
    n.at? (front ++ loc) = (n.at? front).bind (·.at? loc) := by
  induction front generalizing n with
  | nil => rw [List.nil_append, at?_nil, Option.bind_some]
  | cons name rest ih =>
    cases n with
    | folder es =>
      rw [List.cons_append, at?, at?, Option.bind_assoc]
      congr 1
      funext m
      exact ih m
    | file content => rfl
    | link target => rfl

/-- On the way to a node there are folders only. -/
theorem exists_folder_of_at?_append {n m : Node} {front rest : Location} {name : Name}
    (h : n.at? (front ++ name :: rest) = some m) : ∃ es, n.at? front = some (folder es) := by
  rw [at?_append, Option.bind_eq_some_iff] at h
  obtain ⟨mid, hmid, hrest⟩ := h
  obtain ⟨es, -, rfl, -⟩ := at?_cons_eq_some_iff.mp hrest
  exact ⟨es, hmid⟩

theorem WellFormed.of_mem {es : List (Name × Node)} (h : (folder es).WellFormed) {e : Name × Node}
    (he : e ∈ es) : e.1.IsProper ∧ e.2.WellFormed :=
  (wellFormed_folder_iff.mp h).2 e he

theorem WellFormed.of_lookup {es : List (Name × Node)} (h : (folder es).WellFormed) {name : Name}
    {n : Node} (hn : es.lookup name = some n) : name.IsProper ∧ n.WellFormed :=
  h.of_mem ((lookup_eq_some_iff_mem (wellFormed_folder_iff.mp h).1).mp hn)

/-- The names on the way to a node are proper, and the node is well-formed itself. -/
theorem WellFormed.of_at? {n m : Node} (h : n.WellFormed) {loc : Location}
    (hloc : n.at? loc = some m) : (∀ name ∈ loc, name.IsProper) ∧ m.WellFormed := by
  induction loc generalizing n with
  | nil =>
    obtain rfl := Option.some.inj (at?_nil n ▸ hloc)
    exact ⟨fun _ hmem => absurd hmem List.not_mem_nil, h⟩
  | cons name rest ih =>
    obtain ⟨es, next, rfl, hnext, hrest⟩ := at?_cons_eq_some_iff.mp hloc
    obtain ⟨hproper, hwell⟩ := h.of_lookup hnext
    obtain ⟨hnames, hm⟩ := ih hwell hrest
    exact ⟨List.forall_mem_cons.mpr ⟨hproper, hnames⟩, hm⟩

/-! ## The order of entries -/

/-- The same tree, but for the order of the entries of one folder. -/
inductive Reordered : Node → Node → Prop
  | refl (n : Node) : Reordered n n
  | entries {es es' : List (Name × Node)} (h : es.Perm es') : Reordered (folder es) (folder es')
  | within {n n' : Node} (front : List (Name × Node)) (name : Name) (back : List (Name × Node))
      (h : Reordered n n') :
      Reordered (folder (front ++ (name, n) :: back)) (folder (front ++ (name, n') :: back))

namespace Reordered

variable {n n' root root' : Node}

theorem eq_or_folders (h : Reordered n n') :
    n = n' ∨ ∃ es es', n = folder es ∧ n' = folder es' := by
  cases h with
  | refl => exact .inl rfl
  | entries => exact .inr ⟨_, _, rfl, rfl⟩
  | within => exact .inr ⟨_, _, rfl, rfl⟩

theorem rel_self (o : Option Node) : Option.Rel Reordered o o := by
  cases o with
  | none => exact .none
  | some m => exact .some (refl m)

theorem wellFormed (h : Reordered n n') (hn : n.WellFormed) : n'.WellFormed := by
  induction h with
  | refl => exact hn
  | entries hperm =>
    rw [wellFormed_folder_iff] at hn ⊢
    exact ⟨(hperm.map _).nodup_iff.mp hn.1, fun e he => hn.2 e (hperm.mem_iff.mpr he)⟩
  | within front name back _ ih =>
    rw [wellFormed_folder_iff, List.forall_mem_append, List.forall_mem_cons] at hn ⊢
    obtain ⟨hnodup, hfront, ⟨hname, hwell⟩, hback⟩ := hn
    refine ⟨?_, hfront, ⟨hname, ih hwell⟩, hback⟩
    rwa [List.map_append, List.map_cons] at hnodup ⊢

theorem lookup {es es' : List (Name × Node)} (h : Reordered (folder es) (folder es'))
    (hn : (folder es).WellFormed) (name : Name) :
    Option.Rel Reordered (es.lookup name) (es'.lookup name) := by
  cases h with
  | refl => exact rel_self _
  | entries hperm =>
    have hnodup := (wellFormed_folder_iff.mp hn).1
    have hnodup' := (hperm.map Prod.fst).nodup_iff.mp hnodup
    have heq : es.lookup name = es'.lookup name := Option.ext fun m => by
      rw [lookup_eq_some_iff_mem hnodup, lookup_eq_some_iff_mem hnodup', hperm.mem_iff]
    exact heq ▸ rel_self _
  | within front key back h =>
    rw [List.lookup_append, List.lookup_append]
    cases front.lookup name with
    | some m => exact rel_self _
    | none =>
      rw [Option.none_or, Option.none_or, List.lookup_cons, List.lookup_cons]
      cases name == key with
      | true => exact .some h
      | false => exact rel_self _

theorem at? (h : Reordered n n') (hn : n.WellFormed) (loc : Location) :
    Option.Rel Reordered (n.at? loc) (n'.at? loc) := by
  induction loc generalizing n n' with
  | nil =>
    rw [at?_nil, at?_nil]
    exact .some h
  | cons name rest ih =>
    obtain rfl | ⟨es, es', rfl, rfl⟩ := h.eq_or_folders
    · exact rel_self _
    · have hrel := h.lookup hn name
      rw [Node.at?, Node.at?]
      generalize hes : es.lookup name = o, es'.lookup name = o' at hrel
      cases hrel with
      | none => exact .none
      | some hm => exact ih hm (hn.of_lookup hes).2

variable (h : Reordered root root') (hroot : root.WellFormed)
include h hroot

theorem move_eq (loc : Location) (name : Name) : root'.move loc name = root.move loc name := by
  have hrel := h.at? hroot loc
  rw [move, move]
  generalize hloc : root.at? loc = o, root'.at? loc = o' at hrel
  cases hrel with
  | none => rfl
  | some hm =>
    obtain rfl | ⟨es, es', rfl, rfl⟩ := hm.eq_or_folders
    · rfl
    -- A move tells no more of an entry than whether it is a file, a link or a folder.
    · have hrel := hm.lookup (hroot.of_at? hloc).2 name
      dsimp only
      generalize es.lookup name = o, es'.lookup name = o' at hrel
      cases hrel with
      | none => rfl
      | some hnext =>
        obtain rfl | ⟨_, _, rfl, rfl⟩ := hnext.eq_or_folders <;> rfl

theorem walk_eq (loc : Location) (names : List Name) :
    root'.walk loc names = root.walk loc names := by
  induction names generalizing loc with
  | nil => rfl
  | cons name rest ih =>
    rw [walk, walk, h.move_eq hroot]
    cases root.move loc name with
    | error e => rfl
    | ok m =>
      rcases m with next | target | _
      · exact ih next
      · rfl
      · rfl

theorem resolve_eq (links : Nat) (loc : Location) (names : List Name) :
    root'.resolve links loc names = root.resolve links loc names := by
  induction links generalizing loc names with
  | zero => rw [resolve, resolve, h.walk_eq hroot]
  | succ links ih =>
    rw [resolve, resolve, h.walk_eq hroot]
    split
    · rfl
    · rfl
    · exact ih _ _

end Reordered

end Node

namespace FileSystem

/-- What a path leads to is well-formed. -/
theorem wellFormed_of_node? {fs : FileSystem} (hfs : fs.root.WellFormed) {p : Path} {n : Node}
    (h : fs.node? p = .ok n) : n.WellFormed := by
  obtain ⟨loc, -, hn⟩ := node?_eq_ok_iff.mp h
  exact (hfs.of_at? hn).2

/-- The order of entries does not decide where a path leads. -/
theorem locate_reordered {fs : FileSystem} (hfs : fs.root.WellFormed) {root' : Node}
    (h : fs.root.Reordered root') (p : Path) :
    { fs with root := root' }.locate p = fs.locate p := by
  rw [locate, locate]
  split
  · rfl
  · exact h.resolve_eq hfs _ _ _

/-- A path leads to nodes that differ at most in the order of their entries. -/
theorem node?_reordered {fs : FileSystem} (hfs : fs.root.WellFormed) {root' : Node}
    (h : fs.root.Reordered root') (p : Path) :
    (∃ n n', fs.node? p = .ok n ∧ { fs with root := root' }.node? p = .ok n' ∧ n.Reordered n') ∨
      ∃ e, fs.node? p = .error e ∧ { fs with root := root' }.node? p = .error e := by
  rw [node?, node?, reached?, reached?, locate_reordered hfs h]
  cases fs.locate p with
  | error e => exact .inr ⟨e, rfl, rfl⟩
  | ok loc =>
    have hrel := h.at? hfs loc
    dsimp only
    generalize fs.root.at? loc = o, root'.at? loc = o' at hrel
    cases hrel with
    | none => exact .inr ⟨_, rfl, rfl⟩
    | some hn => exact .inl ⟨_, _, rfl, rfl, hn⟩

end FileSystem

end TextHygiene
