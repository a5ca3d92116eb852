import Mathlib.Data.Finset.Card
import TextHygiene.Finding

/-! The order of a report. Enabled rules are normalized to a strictly increasing list, and sorting
findings that differ in file or rule gives the one list of them that increases by file and then by
rule. -/

namespace TextHygiene

namespace Rule

theorem pairwise_normalize (rs : List Rule) : (normalize rs).Pairwise (· < ·) := by
  have hall : all.Pairwise (· < ·) := by decide
  exact hall.filter _

theorem nodup_normalize (rs : List Rule) : (normalize rs).Nodup := by
  have hall : all.Nodup := by decide
  exact hall.filter _

/-- The enabled rules, strictly increasing, are the normalized ones. -/
theorem eq_normalize_of_pairwise {rs enabled : List Rule} (h : rs.Pairwise (· < ·))
    (members : ∀ r, r ∈ rs ↔ r ∈ enabled) : rs = normalize enabled := by
  have hnodup : rs.Nodup := h.imp fun hlt heq => Nat.ne_of_lt hlt (congrArg rank heq)
  have hperm : rs.Perm (normalize enabled) :=
    (List.perm_ext_iff_of_nodup hnodup (nodup_normalize enabled)).mpr fun r => by
      rw [members, mem_normalize]
  refine hperm.eq_of_pairwise ?_ h (pairwise_normalize enabled)
  intro q r _ _ hqr hrq
  exact absurd hrq (Nat.lt_asymm hqr)

/-- A strictly increasing list is normalized as it is. -/
theorem normalize_of_pairwise {rs : List Rule} (h : rs.Pairwise (· < ·)) : normalize rs = rs :=
  (eq_normalize_of_pairwise h fun _ => Iff.rfl).symm

/-- As many rules are run as distinct rules are listed. -/
theorem length_normalize (rs : List Rule) : (normalize rs).length = rs.toFinset.card := by
  rw [← List.toFinset_card_of_nodup (nodup_normalize rs)]
  congr 1
  ext r
  simp [mem_normalize]

end Rule

namespace Finding

/-- Strictly before in a report: an earlier file, or an earlier rule on the same file. -/
def Before (f g : Finding) : Prop :=
  f.fileIndex < g.fileIndex ∨ f.fileIndex = g.fileIndex ∧ f.rule < g.rule

/-- What a finding is about. A report has one finding of a key at most. -/
def key (f : Finding) : Nat × Rule := (f.fileIndex, f.rule)

theorem le_iff {f g : Finding} :
    le f g = true ↔
      f.fileIndex < g.fileIndex ∨ f.fileIndex = g.fileIndex ∧ f.rule.rank ≤ g.rule.rank := by
  simp [le]

theorem le_of_before {f g : Finding} (h : Before f g) : le f g = true := by
  rw [le_iff]
  rcases h with hlt | ⟨heq, hlt⟩
  · exact .inl hlt
  · exact .inr ⟨heq, Nat.le_of_lt hlt⟩

theorem key_ne_of_before {f g : Finding} (h : Before f g) : f.key ≠ g.key := by
  intro hk
  obtain ⟨hindex, hrule⟩ := Prod.mk.inj hk
  rcases h with hlt | ⟨-, hlt⟩
  · omega
  · rw [hrule] at hlt
    exact Nat.lt_irrefl _ hlt

theorem key_eq_of_le_of_le {f g : Finding} (hfg : le f g = true) (hgf : le g f = true) :
    f.key = g.key := by
  rw [le_iff] at hfg hgf
  have hindex : f.fileIndex = g.fileIndex := by omega
  have hrule : f.rule = g.rule := Rule.rank_injective (by omega)
  exact Prod.ext hindex hrule

theorem le_trans (f g h : Finding) (hfg : le f g = true) (hgh : le g h = true) :
    le f h = true := by
  rw [le_iff] at *
  omega

theorem le_total (f g : Finding) : (le f g || le g f) = true := by
  rw [Bool.or_eq_true, le_iff, le_iff]
  omega

theorem nodup_keys {fs : List Finding} (h : fs.Pairwise Before) : (fs.map key).Nodup :=
  List.pairwise_map.mpr (h.imp key_ne_of_before)

/-- However the findings were come by, sorting them gives the list that is in order. -/
theorem sort_eq_of_perm {fs ordered : List Finding} (hp : fs.Perm ordered)
    (ho : ordered.Pairwise Before) : sort fs = ordered := by
  have hsort : (sort fs).Perm ordered := (List.mergeSort_perm fs le).trans hp
  have antisymm : ∀ f g, f ∈ sort fs → g ∈ ordered → le f g = true → le g f = true → f = g := by
    intro f g hf hg hfg hgf
    exact List.inj_on_of_nodup_map (nodup_keys ho) (hsort.mem_iff.mp hf) hg
      (key_eq_of_le_of_le hfg hgf)
  exact List.Perm.eq_of_pairwise antisymm (List.pairwise_mergeSort le_trans le_total fs)
    (ho.imp le_of_before) hsort

/-- A report is determined by its members. -/
theorem eq_of_mem_iff {fs gs : List Finding} (hf : fs.Pairwise Before) (hg : gs.Pairwise Before)
    (members : ∀ f, f ∈ fs ↔ f ∈ gs) : fs = gs := by
  have hperm : fs.Perm gs :=
    (List.perm_ext_iff_of_nodup (.of_map key (nodup_keys hf)) (.of_map key (nodup_keys hg))).mpr
      members
  calc fs = sort fs := (sort_eq_of_perm (.refl fs) hf).symm
    _ = gs := sort_eq_of_perm hperm hg

end Finding

end TextHygiene
