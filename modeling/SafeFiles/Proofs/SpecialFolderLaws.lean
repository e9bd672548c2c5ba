import SafeFiles.Proofs.ContainmentLaws
import SafeFiles.Proofs.Path.OrderLaws
import SafeFiles.SpecialFolder

/-!
# Paths behind a tag

A tagged path is joined to its folder and made absolute. A rest that is relative adds
its components to those of the folder, be they `..`, so the result stays below it as
far as texts go. A rest that begins with a slash takes the place of the folder
(`resolve_below_iff`).
-/

namespace SafeFiles

namespace SpecialFolder

variable {env : Environment} {d : Disk} {tag rest : Text} {folder : SpecialFolder} {base : Path}

theorem resolve_tagged (htag : '>' ∉ tag) (hfolder : parse? tag = some folder)
    (hbase : folder.location? env d = some base) :
    resolve env d (tag ++ '>' :: rest) = d.absolute (base.join rest) := by
  have hno : ∀ c ∈ tag, decide (c = '>') = false := fun c hc => decide_eq_false fun heq => htag (heq ▸ hc)
  have hcut : Text.cutAt (· = '>') (tag ++ '>' :: rest) = (tag, '>' :: rest) := Text.cutAt_of_stop hno (by simp)
  rw [resolve, hcut]
  simp only [hfolder, hbase]

/-- A tagged path always resolves, and it stays below an absolute folder unless what stands behind the tag is
an absolute path that leads elsewhere. -/
theorem resolve_below_iff (htag : '>' ∉ tag) (hfolder : parse? tag = some folder)
    (hbase : folder.location? env d = some base) (habs : base.isAbsolute = true) :
    ∃ p, resolve env d (tag ++ '>' :: rest) = .ok p ∧
      (base.isAncestor p = true ↔ Path.isAbsolute rest = false ∨ base.isAncestor rest = true) := by
  rw [resolve_tagged htag hfolder hbase]
  have hne : base ≠ [] := by rintro rfl; cases habs
  cases hrest : Path.isAbsolute rest with
  | true =>
    obtain ⟨p, hp, hcs⟩ := Disk.absolute_of_isAbsolute d hrest
    refine ⟨p, by rw [Path.join, if_pos hrest, hp], ?_⟩
    simp [Path.isAncestor_iff, hcs, hne]
  | false =>
    obtain ⟨p, hp, hcs⟩ := Disk.absolute_of_isAbsolute d ((Path.isAbsolute_join base hrest).trans habs)
    obtain ⟨inner, hinner⟩ := Path.components_join_of_isAbsolute habs hrest
    refine ⟨p, hp, ?_⟩
    simp [Path.isAncestor_iff, hcs, hinner, hne]

def homeOnly : Environment := [("HOME".toList, "/h".toList)]

def bareDisk : Disk := { items := [], nodes := [], cwd := [] }

theorem resolve_below_iff_climbing : ('>' ∉ " HOME ".toList) ∧ parse? " HOME ".toList = some .home ∧
    location? homeOnly bareDisk .home = some "/h".toList ∧ Path.isAbsolute "/h".toList = true ∧
    ∃ p, resolve homeOnly bareDisk " HOME >..//x>y/".toList = .ok p ∧ Path.isAncestor "/h".toList p = true := by
  have hfolder : parse? " HOME ".toList = some .home := by decide +kernel
  have hbase : location? homeOnly bareDisk .home = some "/h".toList := by decide +kernel
  obtain ⟨p, hp, hbelow⟩ := @resolve_below_iff _ _ _ "..//x>y/".toList _ _ (by decide) hfolder hbase (by decide)
  exact ⟨by decide, hfolder, hbase, by decide, p, hp, hbelow.mpr (.inl (by decide))⟩

/-- Behind the tag stands an absolute path, and the tag does not count any more. -/
theorem resolve_leaves_folder : parse? "Home".toList = some .home ∧
    location? homeOnly bareDisk .home = some "/h".toList ∧ Path.isAbsolute "/h".toList = true ∧
    resolve homeOnly bareDisk "Home>/abs".toList = .ok "/abs".toList ∧
    Path.isAncestor "/h".toList "/abs".toList = false := by
  decide +kernel

end SpecialFolder

end SafeFiles
