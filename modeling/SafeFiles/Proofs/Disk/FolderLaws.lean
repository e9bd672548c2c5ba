import SafeFiles.Proofs.Disk.BrinkLaws
import SafeFiles.Proofs.Path.ParentLaws

/-!
# Folders made for a path

A folder that is made, alone or with all that are missing above it, is where its path
leads afterwards (`isFolder_of_makeFolders`). To make a folder under a missing one is
to make the missing one first (`makeFolders_join`): the ancestors of the longer path
are the shorter path, but for slashes at its end, and its ancestors.
-/

namespace SafeFiles

theorem Table.keys_set {κ α : Type} [DecidableEq κ] {t : Table κ α} {key : κ} (h : t.get? key = none) (value : α) :
    (t.set key value).keys = t.keys ++ [key] := by
  induction t with
  | nil => rfl
  | cons entry rest ih =>
    obtain ⟨k, v⟩ := entry
    by_cases hk : k = key
    · simp [Table.get?, hk] at h
    · simp only [Table.get?, if_neg hk] at h
      simp only [Table.set, if_neg hk, Table.keys, List.map_cons, List.cons_append]
      exact congrArg _ (ih h)

namespace Disk

variable {d d' d'' : Disk} {p : Path} {front : List Step} {m n : Name} {a place : Place} {f : Fault}

-- ---------------------------------------------------------------------------
-- Where a made folder is
-- ---------------------------------------------------------------------------

theorem isFolder_iff_route : d.isFolder p = true ↔ checkPath p = .ok () ∧
    ∃ place, d.Route .follow linkLimit (d.start p) p.bare place ∧ d.isFolderAt place := by
  rw [isFolder_iff]
  constructor
  · rintro ⟨place, hstat, hf⟩
    obtain ⟨hc, hr, -⟩ := seek_ok.mp hstat
    exact ⟨hc, place, hr.bare, hf⟩
  · rintro ⟨hc, place, hr, hf⟩
    obtain ⟨mode, hm⟩ := isFolderAt_iff.mp hf
    exact ⟨place, seek_ok.mpr ⟨hc, hr.of_bare hf, by simp [hm]⟩, hf⟩

theorem isFolder_of_makeFolder (h : d.makeFolder p = .ok d') : d'.isFolder p = true := by
  have hw := within_makeFolder h
  obtain ⟨folder, n, slash, hfolder, hn, -, rfl⟩ := makeFolder_ok.mp h
  obtain ⟨before, hs, hr, hf⟩ := folderOf_name hfolder
  have hnew : (d.setItem (folder ++ [n]) (.folder newFolderMode)).item? (folder ++ [n]) =
      some (.folder newFolderMode) := by simp [item?_setItem]
  refine isFolder_iff_route.mpr ⟨(folderOf_ok.mp hfolder).1, folder ++ [n], ?_, isFolderAt_of_item hnew⟩
  rw [Path.bare_of_steps _ hs]
  exact (hr.within hw).append (hw.isFolderAt hf) (by simp) (by simp) fun _ => .folder (by simp) hn hnew .done

theorem isFolder_of_makeFolders (hne : p ≠ []) (h : (d.makeFolders p).1 = .ok ()) :
    (d.makeFolders p).2.isFolder p = true := by
  rw [makeFolders, Path.ancestors, makeFoldersFrom, if_neg hne] at h ⊢
  split
  · rename_i made hmade
    exact isFolder_of_makeFolder hmade
  · rename_i f hmade
    simp only [hmade] at h
    split
    · rename_i hmissing
      simp only [if_pos hmissing] at h
      split
      · rename_i heq
        simp [heq] at h
      · rename_i after heq
        simp only [heq] at h
        split
        · rename_i made hmade
          exact isFolder_of_makeFolder hmade
        · rename_i hmade
          simp only [hmade] at h
          split
          · assumption
          · rename_i hf
            simp [hf] at h
    · rename_i hmissing
      simp only [if_neg hmissing] at h
      split
      · assumption
      · rename_i hf
        simp [hf] at h

-- ---------------------------------------------------------------------------
-- Folders above a name
-- ---------------------------------------------------------------------------

theorem splitLast_steps (h : p.bare = front ++ [.down m]) : ∃ slash, splitLast p.steps = (front, .name m slash) := by
  rcases p.steps_eq with hs | hs
  · exact ⟨false, by rw [hs, h, splitLast_concat]⟩
  · exact ⟨true, by rw [hs, h]; simp [splitLast]⟩

theorem checkPath_trimmed (hc : checkPath p = .ok ()) (h : p.bare = front ++ [.down m]) :
    checkPath p.trimmed = .ok () := by
  obtain ⟨hnul, -, hlen⟩ := checkPath_ok hc
  obtain ⟨rest, hrest⟩ := p.trimmed_begins
  refine checkPath_of ?_ ?_ ?_
  · rw [← hrest] at hnul
    simp only [Path.hasNul, List.contains_eq_mem, List.mem_append, decide_eq_false_iff_not, not_or] at hnul ⊢
    exact hnul.1
  · intro hnil
    have hbare := (Path.bare_trimmed h).trans h
    simp [hnil, Path.bare, Text.pieces, Step.ofPiece?] at hbare
  · rw [← hrest, Text.utf8Size_append] at hlen
    omega

theorem makeFolder_trimmed (hc : checkPath p = .ok ()) (h : p.bare = front ++ [.down m]) (d : Disk) :
    d.makeFolder p.trimmed = d.makeFolder p := by
  obtain ⟨slash, hs⟩ := splitLast_steps h
  obtain ⟨slash', hs'⟩ := splitLast_steps ((Path.bare_trimmed h).trans h)
  have hstart : d.start p.trimmed = d.start p := start_eq rfl p.isAbsolute_trimmed
  simp only [makeFolder, vacancy, folderOf, checkPath_trimmed hc h, hc, hs, hs', hstart, bind, Except.bind]
  cases d.walk .follow linkLimit (d.start p) (front ++ [.slash]) with
  | error e => rfl
  | ok spot =>
    cases spot with
    | free _ _ => rfl
    | found folder =>
      cases hf : d.isFolderAt folder with
      | false => simp [hf]
      | true =>
        simp only [hf, if_true]
        cases d.child folder m with
        | error f => rfl
        | ok item => cases item <;> simp

theorem isFolder_trimmed (hc : checkPath p = .ok ()) (h : p.bare = front ++ [.down m]) (d : Disk) :
    d.isFolder p.trimmed = d.isFolder p := by
  have hstart : d.start p.trimmed = d.start p := start_eq rfl p.isAbsolute_trimmed
  rw [Bool.eq_iff_iff, isFolder_iff_route, isFolder_iff_route, checkPath_trimmed hc h, hc, hstart, Path.bare_trimmed h]

/-- Where a name has to wait for the folder above it, that folder is made first, and all above it. -/
theorem makeFolders_join (hc : checkPath p = .ok ()) (h : p.bare = front ++ [.down m]) (hn : n.IsPlain)
    (hwait : d.makeFolder (p.join n) = .error f) (hf : f.isNotFound = true)
    (habove : d.makeFolders p = (.ok (), d')) (hmade : d'.makeFolder (p.join n) = .ok d'') :
    d.makeFolders (p.join n) = (.ok (), d'') := by
  obtain ⟨-, hne, -⟩ := checkPath_ok hc
  obtain ⟨-, hne', -⟩ := checkPath_ok (checkPath_trimmed hc h)
  have hsame : d.makeFoldersFrom (p.trimmed :: p.properAncestors) = (.ok (), d') := by
    rw [← habove, makeFolders, Path.ancestors, makeFoldersFrom, makeFoldersFrom, if_neg hne, if_neg hne']
    simp only [makeFolder_trimmed hc h, isFolder_trimmed hc h]
  rw [makeFolders, Path.ancestors_join hne hn, makeFoldersFrom, if_neg (Path.join_ne_nil hn.1)]
  simp only [hwait, hf, if_true, hsame, hmade]

theorem makeFolders_of_makeFolder (hne : p ≠ []) (h : d.makeFolder p = .ok d') : d.makeFolders p = (.ok (), d') := by
  rw [makeFolders, Path.ancestors, makeFoldersFrom, if_neg hne]
  simp only [h]

theorem Brink.walk_past {here home : Place} {before rest : List Step} (hb : d.Brink here before n home)
    (hfree : d.item? (home ++ [n]) = none) (hn : Text.utf8Size n ≤ nameLimit) (hrest : rest ≠ []) :
    d.walk .follow linkLimit here (before ++ .down n :: rest) = .error .noEntry := by
  obtain ⟨fewer, -, hwalk⟩ := hb.home.walk_append hb.folder
  rw [hwalk, walk_eq_stride, stride, if_neg (by simp), if_neg (Nat.not_lt.mpr hn)]
  simp [hfree, hrest]

-- ---------------------------------------------------------------------------
-- Listings that stay
-- ---------------------------------------------------------------------------

theorem names_setItem (hfree : d.item? place = none) (hout : ¬ a <+: place) (item : Item) :
    (d.setItem place item).names a = d.names a := by
  have hne : place ≠ [] := by
    rintro rfl
    cases hfree
  have hunder : nameUnder? a place = none := by
    rw [nameUnder?, if_neg]
    rintro rfl
    exact hout (List.dropLast_prefix place)
  rw [item?_eq_get? hne] at hfree
  rw [names, names, setItem, Table.keys_set hfree, List.filterMap_append]
  simp [hunder]

end Disk

end SafeFiles
