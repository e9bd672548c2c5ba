import SafeFiles.Proofs.Disk.FolderLaws
import SafeFiles.Proofs.GateLaws
import SafeFiles.Proofs.SettingsFileLaws
import SafeFiles.World.Script

/-!
# Secure writes

A configuration is put in its place by one rename, so the disk is left as it was
once the missing folders are made, or one private file has come to stand there.
The rename is taken back by nothing. If the path led through the link that has
been replaced, its folder is not found any more when it is opened to be flushed, or
the new file is taken for it: the write then fails, or claims success for a path
that leads nowhere (`Config.writeSecure_atomic_iff`).
-/

namespace SafeFiles

namespace Disk

variable {d d' : Disk} {p src dst parent : Path} {place q : Place} {id : NodeId} {bytes : Bytes} {n : Name}
  {front : List Step}

-- ---------------------------------------------------------------------------
-- The mode of a file
-- ---------------------------------------------------------------------------

theorem mode_setNode {other : NodeId} {mode : Mode} {old new : Bytes} (h : d.node other = .file mode old)
    (id : NodeId) : ((d.setNode other (.file mode new)).node id).mode = (d.node id).mode := by
  rw [node_setNode]
  split
  · rename_i heq
    rw [← heq, h]
    rfl
  · rfl

theorem append_mode (h : d.append place bytes = .ok d') (id : NodeId) : (d'.node id).mode = (d.node id).mode := by
  obtain ⟨other, -, rfl | ⟨mode, old, hnode, rfl⟩⟩ := append_ok h
  · rfl
  · exact mode_setNode hnode id

theorem openWrite_mode {opening : Opening} (h : d.openWrite p opening = .ok (place, d'))
    (hi : d.item? q = some (.leaf id)) : (d'.node id).mode = (d.node id).mode := by
  rcases openWrite_ok h with ⟨folder, n, -, rfl, rfl⟩ | ⟨other, -, -, rfl | ⟨-, mode, old, hnode, rfl⟩⟩
  · rw [node_addNode, if_neg (ne_freshId_of_item hi).symm]
  · rfl
  · exact mode_setNode hnode id

theorem write_mode (h : d.write p bytes = .ok d') (hi : d.item? q = some (.leaf id)) :
    (d'.node id).mode = (d.node id).mode := by
  obtain ⟨⟨place, opened⟩, ho, ha⟩ := bind_eq_ok.mp h
  rw [append_mode (mapError_ok_iff.mp ha), openWrite_mode ho hi]

theorem node_rename (h : d.rename src dst = .ok d') (id : NodeId) : d'.node id = d.node id := by
  obtain ⟨-, -, -, -, -, -, ⟨rfl, -⟩ | ⟨rfl, -⟩, -⟩ := rename_ok h <;> rfl

theorem node_discard (d : Disk) (p : Path) (id : NodeId) : (Temp.discard d p).node id = d.node id := by
  unfold Temp.discard
  split
  · rename_i after hunlink
    obtain ⟨folder, n, _, -, -, -, -, rfl⟩ := unlink_ok.mp hunlink
    rfl
  · rfl

theorem createNew_mode {mode : Mode} (h : d.createNew p mode = .ok d') : (d'.node d.freshId).mode = mode := by
  simp only [createNew, bind_eq_ok] at h
  obtain ⟨⟨folder, last⟩, -, h⟩ := h
  cases last with
  | name n slash =>
    cases slash with
    | true => simp at h
    | false =>
      simp only [Bool.false_eq_true, if_false, bind_eq_ok] at h
      obtain ⟨item, -, h⟩ := h
      cases item with
      | some _ => cases h
      | none =>
        cases h
        rw [node_addNode, if_pos rfl]
        rfl
  | _ => cases h

-- ---------------------------------------------------------------------------
-- The folders above a path
-- ---------------------------------------------------------------------------

/-- All that is new is folders, and the parent of the path, or a path above it, leads to each. -/
structure Prepared (d : Disk) (p : Path) (d' : Disk) : Prop where
  grown : Grown [] d d'
  added : ∀ {q}, d.item? q = none → (d'.item? q).isSome → d'.isFolderAt q ∧
    ∃ parent, p.parent? = some parent ∧ ∃ a ∈ parent.ancestors, d'.stat a = .ok q

theorem Within.stat_of_folderOf {folder : Place} {slash : Bool} {mode : Mode} (hw : d.Within d') (hcwd : d'.cwd = d.cwd)
    (hf : d.folderOf p = .ok (folder, .name n slash)) (hn : Text.utf8Size n ≤ nameLimit)
    (hi : d'.item? (folder ++ [n]) = some (.folder mode)) :
    d'.stat p = .ok (folder ++ [n]) := by
  obtain ⟨front, hsteps, hr, hfolder⟩ := folderOf_name hf
  refine seek_ok.mpr ⟨(folderOf_ok.mp hf).1, ?_, by simp [hi]⟩
  rw [hsteps, Within.start hcwd]
  refine (hr.within hw).append (hw.isFolderAt hfolder) (by simp) (by simp) fun links => .folder (by simp) hn hi ?_
  cases slash
  · exact .done
  · exact .slash .done

theorem Prepared.refl (hd : d.WellFormed) (p : Path) : d.Prepared p d :=
  ⟨.refl hd [], fun hnone hsome => by simp [hnone] at hsome⟩

theorem prepared_withParents (hd : d.WellFormed) (p : Path) : d.Prepared p (d.withParents p) := by
  unfold withParents
  split
  · rename_i parent hparent
    refine makeFoldersFrom_keeps (P := d.Prepared p) (fun a ha _ made made' h hm => ?_) (.refl hd p)
    obtain ⟨folder, n, slash, hf, hn, hfree, rfl⟩ := makeFolder_ok.mp hm
    have hw : made.Within (made.setItem (folder ++ [n]) (.folder newFolderMode)) := within_makeFolder hm
    have hstep : Grown [] made (made.setItem (folder ++ [n]) (.folder newFolderMode)) :=
      (Grown.setFolder h.grown.tree (folderOf_ok.mp hf).2.2.2 ⟨plain_of_folderOf hf, hn⟩ hfree _).mono List.nil_prefix
    refine ⟨h.grown.trans hstep List.prefix_rfl, fun {q} hnone hsome => ?_⟩
    rw [item?_setItem _ _ _ _ (by simp)] at hsome
    split at hsome
    · rename_i heq
      subst heq
      refine ⟨by simp [isFolderAt, item?_setItem], parent, hparent, a, ha, ?_⟩
      exact hw.stat_of_folderOf rfl hf hn (by rw [item?_setItem _ _ _ _ (by simp), if_pos rfl])
    · obtain ⟨hfolder, above, habove, b, hb, hstat⟩ := h.added hnone hsome
      exact ⟨hw.isFolderAt hfolder, above, habove, b, hb, hw.seek rfl hstat⟩
  · exact .refl hd p

theorem Prepared.sameAt (h : d.Prepared p d') (hold : (d.item? q).isSome) : d.SameAt d' q := by
  obtain ⟨item, hi⟩ := Option.isSome_iff_exists.mp hold
  exact h.grown.within.sameAt hi

theorem Prepared.folder_of_new {after : Disk} (h : d.Prepared p d') (hsame : d'.SameAt after q)
    (hnone : d.item? q = none) (hsome : (after.item? q).isSome) : after.isFolderAt q = true := by
  rw [hsame.1] at hsome
  have hfolder := (h.added hnone hsome).1
  rwa [isFolderAt, ← hsame.1] at hfolder

-- ---------------------------------------------------------------------------
-- The parent of a path
-- ---------------------------------------------------------------------------

theorem moves_parent (h : p.parent? = some parent) (hsteps : p.steps = front ++ [.down n]) :
    parent.isAbsolute = p.isAbsolute ∧ parent.moves = front.filter (· ≠ .stay) := by
  have hmoves : p.moves = front.filter (· ≠ .stay) ++ [.down n] := by
    rw [← Path.filter_bare, Path.bare_of_steps false hsteps, List.filter_append]
    rfl
  obtain ⟨habs, c, hc, hsplit⟩ := (Path.moves_of_parent? h).resolve_right fun hlone => by simp [hlone.2] at hmoves
  obtain ⟨step, hstep, -⟩ := Component.step?_isSome hc
  rw [hmoves, hstep] at hsplit
  exact ⟨habs, (List.append_inj' hsplit rfl).1.symm⟩

theorem NamesPlainly.isFolder_parent (h : d.NamesPlainly p) {folder : Place} (hl : Landed d (folder ++ [n]) bytes d')
    (hf : d.folderOf p = .ok (folder, .name n false)) (hparent : p.parent? = some parent)
    (hc : checkPath parent = .ok ()) : d'.isFolder parent = true := by
  obtain ⟨folder', n', hf', hkept⟩ := h
  cases hf.symm.trans hf'
  obtain ⟨front, hsteps, hr, hfolder⟩ := folderOf_name hkept
  obtain ⟨habs, hmoves⟩ := moves_parent hparent hsteps
  have hfolder' := hl.others.isFolderAt hfolder
  refine isFolder_iff_route.mpr ⟨hc, folder, (Route.moves_iff hfolder').mp ?_, hfolder'⟩
  rw [hmoves, start_eq hl.cwd habs]
  exact (Route.filter_iff [] hfolder').mpr (hr.within hl.others)

-- ---------------------------------------------------------------------------
-- A file that has taken an entry's place
-- ---------------------------------------------------------------------------

/-- A private file with the bytes stands where there was no folder, and every other entry is what it was. -/
structure Swapped (d : Disk) (place : Place) (bytes : Bytes) (d' : Disk) : Prop where
  leaf : d.isFolderAt place = false
  file : d'.node? place = some (.file privateFileMode bytes)
  others : ∀ q, place ≠ q → d.SameAt d' q

theorem Stored.swapped (h : Stored d place bytes d') (hmode : (d'.node d.freshId).mode = privateFileMode) :
    d.Swapped place bytes d' where
  leaf := h.leaf
  file := by
    obtain ⟨mode, hnode⟩ := h.content
    rw [hnode] at hmode
    rw [node?_of_leaf h.item?_place, hnode, ← hmode]
    rfl
  others _ hq := h.sameAt hq

theorem Stored.not_same (h : Stored d place bytes d') : ¬ d.Same d' := by
  intro hsame
  have hi := (hsame.entries place).1
  rw [h.item?_place] at hi
  exact ne_freshId_of_item hi.symm rfl

end Disk

-- ---------------------------------------------------------------------------
-- Secure writes
-- ---------------------------------------------------------------------------

namespace Config

variable {d after : Disk} {p parent : Path} {bytes : Bytes} {result : Except Report Unit}

theorem place_mode {q : Place} (h : (place d parent p bytes).2.item? q = some (.leaf d.freshId)) :
    ((place d parent p bytes).2.node d.freshId).mode = privateFileMode := by
  unfold place at h ⊢
  cases hreserve : Temp.reserve d parent "config".toList with
  | error f =>
    rw [hreserve] at h
    exact absurd rfl (Disk.ne_freshId_of_item h)
  | ok made =>
    obtain ⟨temp, reserved⟩ := made
    obtain ⟨-, home, hscratch⟩ := Temp.reserve_ok hreserve
    obtain ⟨-, hmade⟩ := Temp.reserveFrom_ok (Temp.reserve_eq_ok.mp hreserve).2
    have hprivate := Disk.createNew_mode hmade
    simp only
    split
    · rw [Disk.node_discard, hprivate]
    · rename_i written hwrite
      have hkept := Disk.write_mode hwrite hscratch.item?_place
      split
      · rename_i after hcommit
        unfold commit at hcommit
        split at hcommit
        · cases hcommit
        · split <;> rw [Disk.node_rename hcommit, hkept, hprivate]
      · rw [Disk.node_discard, hkept, hprivate]

/-- All or nothing, apart from the missing folders, which are made before. -/
inductive Atomic (d : Disk) (p : Path) (bytes : Bytes) (after : Disk) : Except Report Unit → Prop
  /-- The path leads to the file, and nothing but the entry that it names has changed. -/
  | stored {place} : after.stat p = .ok place → Disk.entry? (d.withParents p) p = some place →
      (d.withParents p).Swapped place bytes after → Atomic d p bytes after (.ok ())
  | failed {r} : (d.withParents p).Same after → Atomic d p bytes after (.error r)

theorem Atomic.same (h : Atomic d p bytes after result) (herror : result.isOk = false) :
    (d.withParents p).Same after := by
  cases h with
  | stored => cases herror
  | failed hsame => exact hsame

theorem Atomic.found (h : Atomic d p bytes after result) (hok : result.isOk = true) :
    ∃ place, after.stat p = .ok place := by
  cases h with
  | stored hfound => exact ⟨_, hfound⟩
  | failed => cases hok

/-- Either nothing has changed but that the folders have been made, or the bytes stand at the entry that the
path names then. In the second case all that can still fail is to open the parent. -/
theorem writeSecure_cases (hd : d.WellFormed) (p : Path) (bytes : Bytes) :
    (∃ r, (writeSecure d p bytes).1 = .error r) ∧ (d.withParents p).Same (writeSecure d p bytes).2 ∨
      ∃ parent folder n, p.parent? = some parent ∧ Disk.checkPath parent = .ok () ∧
        (d.withParents p).folderOf p = .ok (folder, .name n false) ∧ Text.utf8Size n ≤ nameLimit ∧
        (d.withParents p).Stored (folder ++ [n]) bytes (writeSecure d p bytes).2 ∧
        (d.withParents p).Swapped (folder ++ [n]) bytes (writeSecure d p bytes).2 ∧
        ((writeSecure d p bytes).1 = .ok () ↔ ∃ home, (writeSecure d p bytes).2.stat parent = .ok home) := by
  have htree := (Disk.prepared_withParents hd p).grown.tree
  unfold writeSecure Disk.withParents at *
  split
  · rename_i hnone
    exact .inl ⟨⟨_, rfl⟩, by simpa [hnone] using .refl d⟩
  · rename_i hempty
    have hsame : (d.makeFolders []).2 = d := by simp [Disk.makeFolders, Path.ancestors, Disk.makeFoldersFrom]
    exact .inl ⟨⟨_, rfl⟩, by simpa [hempty, hsame] using .refl d⟩
  · rename_i parent hne hparent
    simp only [hparent] at htree ⊢
    cases hmake : d.makeFolders parent with
    | mk result made =>
      rw [hmake] at htree
      cases result with
      | error f => exact .inl ⟨⟨_, rfl⟩, .refl made⟩
      | ok u =>
        have hfolder := Disk.isFolder_of_makeFolders hne (congrArg Prod.fst hmake)
        rcases place_ok htree parent p bytes with hkept | ⟨folder, n, hf, hn, hstored, hopened⟩
        · exact .inl hkept
        · exact .inr ⟨parent, folder, n, rfl, (Disk.isFolder_iff_route.mp hfolder).1, hf, hn, hstored,
            hstored.swapped (place_mode hstored.item?_place), hopened⟩

/-- A file that has been stored is found by the path, and the write succeeds. Only if the path led through
the link that the file has replaced, it is not found. -/
theorem writeSecure_outcome (hd : d.WellFormed) (p : Path) (bytes : Bytes) :
    (∃ r, (writeSecure d p bytes).1 = .error r) ∧ (d.withParents p).Same (writeSecure d p bytes).2 ∨
      ∃ parent folder n, p.parent? = some parent ∧ Disk.checkPath parent = .ok () ∧
        (d.withParents p).folderOf p = .ok (folder, .name n false) ∧
        (d.withParents p).Stored (folder ++ [n]) bytes (writeSecure d p bytes).2 ∧
        (d.withParents p).Swapped (folder ++ [n]) bytes (writeSecure d p bytes).2 ∧
        ((d.withParents p).NamesPlainly p ∧ (writeSecure d p bytes).1 = .ok () ∧
            (writeSecure d p bytes).2.stat p = .ok (folder ++ [n]) ∨
          ¬ (d.withParents p).NamesPlainly p ∧ (d.withParents p).isLinkAt (folder ++ [n]) ∧
            ∃ f, (writeSecure d p bytes).2.stat p = .error f) := by
  rcases writeSecure_cases hd p bytes with
    hkept | ⟨parent, folder, n, hparent, hc, hf, hn, hstored, hswapped, hopened⟩
  · exact .inl hkept
  refine .inr ⟨parent, folder, n, hparent, hc, hf, hstored, hswapped, ?_⟩
  obtain ⟨front, hsteps, hroute, hfolder⟩ := Disk.folderOf_name hf
  have hp : p ≠ [] := (Disk.checkPath_ok (Disk.folderOf_ok.mp hf).1).2.1
  rcases hstored.landed.stat_cases hn hp hsteps (by simp) hroute hfolder with
    ⟨hplainly, hstat⟩ | ⟨hodd, f, hstat, -⟩
  · obtain ⟨home, hhome, -⟩ := Disk.isFolder_iff.mp (hplainly.isFolder_parent hstored.landed hf hparent hc)
    exact .inl ⟨hplainly, hopened.mpr ⟨home, hhome⟩, hstat⟩
  · refine .inr ⟨hodd, ?_, f, hstat⟩
    refine ((hstored.read_or_through hn hf).resolve_left fun hread => ?_).1
    obtain ⟨place, hfound, -⟩ := bind_eq_ok.mp hread
    rw [hstat] at hfound
    cases hfound

theorem writeSecure_changes {q : Place} (hd : d.WellFormed) (hold : (d.item? q).isSome)
    (hnot : ¬ d.SameAt (writeSecure d p bytes).2 q) :
    ∃ parent folder n, p.parent? = some parent ∧ parent ≠ [] ∧
      (d.withParents p).folderOf p = .ok (folder, .name n false) ∧ q = folder ++ [n] := by
  have hprepared := (Disk.prepared_withParents hd p).sameAt hold
  rcases writeSecure_outcome hd p bytes with ⟨-, hsame⟩ | ⟨parent, folder, n, hparent, hc, hf, hstored, -, -⟩
  · exact absurd (hprepared.trans (hsame.entries q)) hnot
  · refine ⟨parent, folder, n, hparent, (Disk.checkPath_ok hc).2.1, hf, ?_⟩
    by_contra hother
    exact hnot (hprepared.trans (hstored.sameAt fun hplace => hother hplace.symm))

theorem writeSecure_error_adds {q : Place} (hd : d.WellFormed) (herror : (writeSecure d p bytes).1.isOk = false)
    (hnone : d.item? q = none) (hsome : ((writeSecure d p bytes).2.item? q).isSome) :
    (writeSecure d p bytes).2.isFolderAt q = true := by
  have hprepared := Disk.prepared_withParents hd p
  rcases writeSecure_outcome hd p bytes with
    ⟨-, hsame⟩ | ⟨-, folder, n, -, -, -, hstored, -, ⟨-, hok, -⟩ | ⟨-, hlink, -⟩⟩
  · exact hprepared.folder_of_new (hsame.entries q) hnone hsome
  · rw [hok] at herror
    cases herror
  · -- What the file has replaced is a link, and links are older than the call.
    refine hprepared.folder_of_new (hstored.sameAt ?_) hnone hsome
    rintro rfl
    obtain ⟨id, hi⟩ := Disk.leaf_of_link (hprepared.grown.link_before hlink)
    rw [hi] at hnone
    cases hnone

/-- A write is atomic unless the path leads through the link that it replaces. Otherwise the file takes the
link's place, and the path leads nowhere from then on. -/
theorem writeSecure_atomic_iff (d : Disk) (p : Path) (bytes : Bytes) (hd : d.WellFormed) :
    d.Prepared p (d.withParents p) ∧
    (Atomic d p bytes (writeSecure d p bytes).2 (writeSecure d p bytes).1 ↔
      (d.withParents p).NamesPlainly p ∨ (d.withParents p).Same (writeSecure d p bytes).2) ∧
    (¬ Atomic d p bytes (writeSecure d p bytes).2 (writeSecure d p bytes).1 → ∃ place,
      Disk.entry? (d.withParents p) p = some place ∧ (d.withParents p).isLinkAt place ∧
        (d.withParents p).Swapped place bytes (writeSecure d p bytes).2 ∧
        ((writeSecure d p bytes).2.stat p).isOk = false) := by
  refine ⟨Disk.prepared_withParents hd p, ?_⟩
  rcases writeSecure_outcome hd p bytes with
    ⟨⟨r, hr⟩, hsame⟩ | ⟨-, folder, n, -, -, hf, hstored, hswapped, ⟨hplainly, hok, hstat⟩ | ⟨hodd, hlink, f, hstat⟩⟩
  · have hatomic : Atomic d p bytes (writeSecure d p bytes).2 (writeSecure d p bytes).1 := by
      rw [hr]
      exact .failed hsame
    exact ⟨iff_of_true hatomic (.inr hsame), absurd hatomic⟩
  · have hatomic : Atomic d p bytes (writeSecure d p bytes).2 (writeSecure d p bytes).1 := by
      rw [hok]
      exact .stored hstat (Disk.entry?_of_folderOf hf) hswapped
    exact ⟨iff_of_true hatomic (.inl hplainly), absurd hatomic⟩
  · have hbroken : ¬ Atomic d p bytes (writeSecure d p bytes).2 (writeSecure d p bytes).1 := by
      intro h
      generalize (writeSecure d p bytes).1 = result at h
      cases h with
      | stored hfound => simp [hstat] at hfound
      | failed hsame => exact hstored.not_same hsame
    refine ⟨iff_of_false hbroken fun h => h.elim hodd hstored.not_same, fun _ => ?_⟩
    exact ⟨_, Disk.entry?_of_folderOf hf, hlink, hswapped, by rw [hstat]; rfl⟩

def turning : Disk :=
  { items := [(["real".toList], .folder 0o755), ([['l']], .leaf 0), ([['x']], .leaf 1)]
    nodes := [(0, .link "real".toList), (1, .link ['.'])]
    cwd := [] }

/-- The folder `m` is made, and the link that the path comes back to is replaced. -/
theorem writeSecure_atomic_turning : turning.WellFormed ∧
    (turning.withParents "m/../l".toList).NamesPlainly "m/../l".toList ∧
    Atomic turning "m/../l".toList [1, 2] (writeSecure turning "m/../l".toList [1, 2]).2
      (writeSecure turning "m/../l".toList [1, 2]).1 := by
  have hd : turning.WellFormed := .of_items (by decide +kernel)
  have hplainly : (turning.withParents "m/../l".toList).NamesPlainly "m/../l".toList :=
    ⟨[], ['l'], by decide +kernel, by decide +kernel⟩
  exact ⟨hd, hplainly, (writeSecure_atomic_iff turning "m/../l".toList [1, 2] hd).2.1.mpr (.inl hplainly)⟩

/-- The first path has its link replaced under it and the write fails; with the second it succeeds, but the
file is where the folder was to be found. -/
theorem writeSecure_replaces_its_way :
    ¬ Atomic turning "l/../l".toList [1, 2] (writeSecure turning "l/../l".toList [1, 2]).2
      (writeSecure turning "l/../l".toList [1, 2]).1 ∧
    ¬ Atomic turning "x/x".toList [1, 2] (writeSecure turning "x/x".toList [1, 2]).2
      (writeSecure turning "x/x".toList [1, 2]).1 := by
  constructor
  · intro h
    have hsame := (h.same (by decide +kernel)).entries [['l']]
    have hgone : (writeSecure turning "l/../l".toList [1, 2]).2.item? [['l']] ≠
        (turning.withParents "l/../l".toList).item? [['l']] := by
      decide +kernel
    exact hgone hsame.1
  · intro h
    obtain ⟨place, hfound⟩ := h.found (by decide +kernel)
    have hlost : ((writeSecure turning "x/x".toList [1, 2]).2.stat "x/x".toList).isOk = false := by decide +kernel
    rw [hfound] at hlost
    cases hlost

end Config

end SafeFiles
