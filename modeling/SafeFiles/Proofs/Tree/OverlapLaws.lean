import Mathlib.Data.Set.Basic
import SafeFiles.Proofs.Path.OrderLaws
import SafeFiles.Tree.Listing

/-!
# Conflicts are overlaps

A path reaches itself and the files listed below it, each known by its components.
Two paths conflict if and only if they reach something in common, so it makes no
difference which of them comes first.
-/

namespace SafeFiles

namespace Disk

variable {d : Disk} {a b p : Path}

def reach (d : Disk) (p : Path) : Set (List Component) := {cs | ∃ q ∈ p :: d.enumerate p [], q.components = cs}

theorem components_mem_reach (d : Disk) (p : Path) : p.components ∈ d.reach p := ⟨p, List.mem_cons_self, rfl⟩

theorem components_mem_reach_of_listed {q : Path} (h : q ∈ d.enumerate p []) : q.components ∈ d.reach p :=
  ⟨q, List.mem_cons_of_mem p h, rfl⟩

/-- Whether a path is among those that were seen is asked by its components. -/
theorem any_same_reach : ((a :: d.enumerate a []).any p.same) = true ↔ p.components ∈ d.reach a := by
  simp only [List.any_eq_true, Path.same_iff]
  exact exists_congr fun q => and_congr_right fun _ => eq_comm

theorem conflicts_eq_overlap (d : Disk) (a b : Path) :
    (d.conflicts a b = true ↔ (d.reach a ∩ d.reach b).Nonempty) ∧ d.conflicts a b = d.conflicts b a := by
  have hoverlap (a b : Path) : d.conflicts a b = true ↔ (d.reach a ∩ d.reach b).Nonempty := by
    rw [conflicts]
    simp only [Bool.or_eq_true, any_same_reach, List.any_eq_true (l := d.enumerate b []), Path.same_iff]
    constructor
    · rintro ((hsame | hb) | ⟨q, hq, ha⟩)
      · exact ⟨b.components, hsame ▸ components_mem_reach d a, components_mem_reach d b⟩
      · exact ⟨b.components, hb, components_mem_reach d b⟩
      · exact ⟨q.components, ha, components_mem_reach_of_listed hq⟩
    · rintro ⟨cs, ha, q, hq, rfl⟩
      rcases List.mem_cons.mp hq with rfl | hq
      · exact .inl (.inr ha)
      · exact .inr ⟨q, hq, ha⟩
  refine ⟨hoverlap a b, ?_⟩
  rw [Bool.eq_iff_iff, hoverlap, hoverlap, Set.inter_comm]

end Disk

end SafeFiles
