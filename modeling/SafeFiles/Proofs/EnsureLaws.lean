import SafeFiles.Disk.Ensure
import SafeFiles.Proofs.Disk.FolderLaws
import SafeFiles.Proofs.Disk.KeptLaws

/-!
# Making sure only adds

To make sure that a path exists, or that it is a folder, takes nothing away and changes
nothing, wherever it stops: what is new is folders, and at most one empty file, to
which the path leads (`Disk.Extended`). Where the call succeeds it has brought about
what it was asked for, so a second call finds nothing to do
(`Disk.touch_ensureFolder_only_add`).
-/

namespace SafeFiles

namespace Disk

variable {d d' d'' : Disk} {p : Path} {place folder q : Place} {n : Name} {file : Option Place}

-- ---------------------------------------------------------------------------
-- Disks with entries more
-- ---------------------------------------------------------------------------

def IsNewFile (d : Disk) (place : Place) : Prop :=
  ∃ id, d.item? place = some (.leaf id) ∧ d.node id = .file newFileMode [] ∧
    ∀ q, d.item? q = some (.leaf id) → q = place

/-- Every entry of `d` is there with what it held, and what `d'` has over it is new folders and, if `file`
names a place, a new file there. -/
structure Extended (d : Disk) (file : Option Place) (d' : Disk) : Prop where
  within : d.Within d'
  cwd : d'.cwd = d.cwd
  new : ∀ {q}, d.item? q = none → (d'.item? q).isSome →
    d'.item? q = some (.folder newFolderMode) ∨ file = some q ∧ d'.IsNewFile q

theorem Extended.refl (d : Disk) (file : Option Place) : d.Extended file d where
  within := .refl d
  cwd := rfl
  new hnone hsome := by simp [hnone] at hsome

theorem Extended.makeFolder (h : d.Extended none d') (hmade : d'.makeFolder p = .ok d'') : d.Extended none d'' := by
  obtain ⟨folder, n, slash, -, -, hfree, rfl⟩ := makeFolder_ok.mp hmade
  refine ⟨h.within.trans (within_setItem _ (by simp) hfree), h.cwd, fun hnone hsome => ?_⟩
  rw [item?_setItem _ _ _ _ (by simp)] at hsome ⊢
  split
  · exact .inl rfl
  · rename_i hother
    rw [if_neg hother] at hsome
    exact .inl ((h.new hnone hsome).resolve_right fun hfile => nomatch hfile.1)

theorem extended_makeFolders (d : Disk) (p : Path) : d.Extended none (d.makeFolders p).2 :=
  makeFoldersFrom_keeps (fun _ _ _ _ _ h hmade => h.makeFolder hmade) (.refl d none)

theorem extended_ensureParent (d : Disk) (p : Path) : d.Extended none (d.ensureParent p).2 := by
  unfold ensureParent
  split
  · exact .refl d none
  · exact .refl d none
  · rename_i parent _ _
    have hmade := extended_makeFolders d parent
    split <;> rename_i heq <;> rwa [heq] at hmade

theorem Extended.addFile (h : d.Extended none d') (hfree : d'.item? (folder ++ [n]) = none) :
    d.Extended (some (folder ++ [n])) (d'.addNode (folder ++ [n]) (.file newFileMode [])) := by
  refine ⟨h.within.trans (within_addNode _ (by simp) hfree), h.cwd, fun {q} hnone hsome => ?_⟩
  by_cases hq : folder ++ [n] = q
  · subst hq
    refine .inr ⟨rfl, d'.freshId, ?_, ?_, fun q hq => ?_⟩
    · rw [item?_addNode _ _ _ (by simp), if_pos rfl]
    · rw [node_addNode, if_pos rfl]
    · rw [item?_addNode _ _ _ (by simp)] at hq
      split at hq
      · exact Eq.symm ‹_›
      · exact absurd rfl (ne_freshId_of_item hq)
  · rw [item?_addNode _ _ _ (by simp), if_neg hq] at hsome ⊢
    exact .inl ((h.new hnone hsome).resolve_right fun hfile => nomatch hfile.1)

-- ---------------------------------------------------------------------------
-- Opened files
-- ---------------------------------------------------------------------------

theorem stat_of_openWrite {opening : Opening} (h : d.openWrite p opening = .ok (place, d')) :
    d'.stat p = .ok place := by
  have hkept := kept_openWrite h
  rcases openWrite_ok h with ⟨folder, n, hl, rfl, rfl⟩ | ⟨id, hl, hi, hd'⟩
  · obtain ⟨_, hc, hw⟩ := bind_eq_ok.mp hl
    have hnew : (d.addNode (folder ++ [n]) (.file opening.mode [])).item? (folder ++ [n]) =
        some (.leaf d.freshId) := by rw [item?_addNode _ _ _ (by simp), if_pos rfl]
    refine seek_ok.mpr ⟨hc, ?_, by simp [hnew]⟩
    refine route_of_walk_free hkept hnew ?_ (mapError_ok_iff.mp hw)
    rw [node_addNode, if_pos rfl]
    rfl
  · obtain ⟨hc, hr⟩ := locate_found.mp hl
    have hcwd : d'.cwd = d.cwd := by rcases hd' with rfl | ⟨-, _, _, -, rfl⟩ <;> rfl
    exact hkept.seek hcwd (seek_ok.mpr ⟨hc, hr.follow_of_create, by simp [hi]⟩)

theorem there_of_stat (h : d.stat p = .ok place) : d.there p = true := by
  rw [there, h]
  rfl

-- ---------------------------------------------------------------------------
-- Making sure
-- ---------------------------------------------------------------------------

theorem touch_of_there (h : d.there p = true) : d.touch p = (.ok (), d) := by
  rw [touch, if_pos h]

theorem ensureFolder_of_isFolder (h : d.isFolder p = true) : d.ensureFolder p = (.ok (), d) := by
  rw [ensureFolder, if_pos h]

/-- A call that finds nothing at the path fails, with folders made at most, or opens a file that the path
leads to then. -/
theorem touch_cases (d : Disk) (p : Path) : d.touch p = (.ok (), d) ∧ d.there p = true ∨
    (∃ r, (d.touch p).1 = .error r) ∧ (d.touch p).2 = (d.ensureParent p).2 ∨
    ∃ place, (d.touch p).1 = .ok () ∧
      (d.ensureParent p).2.openWrite p { truncate := false } = .ok (place, (d.touch p).2) := by
  by_cases hthere : d.there p = true
  · exact .inl ⟨touch_of_there hthere, hthere⟩
  refine .inr ?_
  rw [touch, if_neg hthere]
  obtain ⟨result, made⟩ := d.ensureParent p
  cases result with
  | error r => exact .inl ⟨⟨r, rfl⟩, rfl⟩
  | ok u =>
    cases ho : made.openWrite p { truncate := false } with
    | error f => exact .inl (by simp [ho])
    | ok opened => exact .inr ⟨opened.1, by simp [ho]⟩

theorem touch_extended (d : Disk) (p : Path) : ∃ file, d.Extended file (d.touch p).2 ∧
    ∀ place, file = some place → (d.touch p).1 = .ok () ∧ (d.touch p).2.stat p = .ok place := by
  have hparent := extended_ensureParent d p
  rcases touch_cases d p with ⟨hdone, -⟩ | ⟨-, hmade⟩ | ⟨place, hok, ho⟩
  · rw [hdone]
    exact ⟨none, .refl d none, fun _ h => nomatch h⟩
  · rw [hmade]
    exact ⟨none, hparent, fun _ h => nomatch h⟩
  · have hstat := stat_of_openWrite ho
    rcases openWrite_ok ho with ⟨folder, n, hl, rfl, hafter⟩ | ⟨id, -, -, hafter | ⟨htruncate, -⟩⟩
    · refine ⟨some (folder ++ [n]), ?_, fun place hplace => ⟨hok, by rw [hstat, Option.some.inj hplace]⟩⟩
      rw [hafter]
      exact hparent.addFile (locate_free hl).2.free
    · rw [hafter]
      exact ⟨none, hparent, fun _ h => nomatch h⟩
    · cases htruncate

theorem there_touch (h : (d.touch p).1 = .ok ()) : (d.touch p).2.there p = true := by
  rcases touch_cases d p with ⟨hdone, hthere⟩ | ⟨⟨r, hr⟩, -⟩ | ⟨place, -, ho⟩
  · rwa [hdone]
  · rw [h] at hr
    cases hr
  · exact there_of_stat (stat_of_openWrite ho)

theorem ensureFolder_extended (d : Disk) (p : Path) : d.Extended none (d.ensureFolder p).2 := by
  have hmade := extended_makeFolders d p
  unfold ensureFolder
  split
  · exact .refl d none
  split
  · exact .refl d none
  · split <;> rename_i heq <;> rwa [heq] at hmade

theorem isFolder_ensureFolder (hp : p ≠ []) (h : (d.ensureFolder p).1 = .ok ()) :
    (d.ensureFolder p).2.isFolder p = true := by
  unfold ensureFolder at h ⊢
  split
  · assumption
  rename_i hfolder
  rw [if_neg hfolder] at h
  split
  · rename_i hthere
    rw [if_pos hthere] at h
    cases h
  rename_i hthere
  rw [if_neg hthere] at h
  have hmade := isFolder_of_makeFolders (d := d) hp
  split
  · rename_i made heq
    rw [heq] at hmade
    exact hmade rfl
  · rename_i f made heq
    rw [heq] at h
    cases h

/-- Neither call takes an entry away or changes one, whatever it returns. A folder adds folders only, a touch
one empty file besides. After a success the path is there, or is a folder, and the same call changes nothing. -/
theorem touch_ensureFolder_only_add (d : Disk) (p : Path) (hp : p ≠ []) :
    ((∃ file, d.Extended file (d.touch p).2 ∧
        ∀ place, file = some place → (d.touch p).1 = .ok () ∧ (d.touch p).2.stat p = .ok place) ∧
      ((d.touch p).1 = .ok () →
        (d.touch p).2.there p = true ∧ (d.touch p).2.touch p = (.ok (), (d.touch p).2))) ∧
    (d.Extended none (d.ensureFolder p).2 ∧
      ((d.ensureFolder p).1 = .ok () →
        (d.ensureFolder p).2.isFolder p = true ∧
          (d.ensureFolder p).2.ensureFolder p = (.ok (), (d.ensureFolder p).2))) := by
  refine ⟨⟨touch_extended d p, fun hok => ?_⟩, ensureFolder_extended d p, fun hok => ?_⟩
  · have hthere := there_touch hok
    exact ⟨hthere, touch_of_there hthere⟩
  · have hfolder := isFolder_ensureFolder hp hok
    exact ⟨hfolder, ensureFolder_of_isFolder hfolder⟩

def dangling : Disk :=
  { items := [([['l']], .leaf 0)]
    nodes := [(0, .link ['n'])]
    cwd := [] }

/-- The folder `m` is made on the way, and the file behind the link. A folder cannot be made there. -/
theorem dangling_touched : "m/../l".toList ≠ [] ∧ (dangling.touch "m/../l".toList).1 = .ok () ∧
    (dangling.touch "m/../l".toList).2.item? [['n']] = some (.leaf 1) ∧
    (dangling.touch "m/../l".toList).2.touch "m/../l".toList = (.ok (), (dangling.touch "m/../l".toList).2) ∧
    (dangling.ensureFolder "m/../l".toList).1.isOk = false ∧
    dangling.Extended none (dangling.ensureFolder "m/../l".toList).2 := by
  have hne : "m/../l".toList ≠ [] := by decide
  have hok : (dangling.touch "m/../l".toList).1 = .ok () := by decide +kernel
  obtain ⟨⟨-, hagain⟩, hfolders, -⟩ := touch_ensureFolder_only_add dangling "m/../l".toList hne
  exact ⟨hne, hok, by decide +kernel, (hagain hok).2, by decide +kernel, hfolders⟩

end Disk

end SafeFiles
