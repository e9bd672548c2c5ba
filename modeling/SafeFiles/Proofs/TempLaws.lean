import SafeFiles.Proofs.Disk.RenameLaws
import SafeFiles.Proofs.TransferLaws
import SafeFiles.Temp

/-!
# Temporary files stand apart

A temporary file is one entry more, and no path leads through it, so every other
path means what it meant before (`Stored.folderOf`). To discard the file gives
back the tree, and to rename it changes nothing but the entry that it replaces.
-/

namespace SafeFiles

namespace Disk

/-- All that `d'` has over `d` is a new file; it may have replaced a leaf at its place. -/
structure Stored (d : Disk) (place : Place) (bytes : Bytes) (d' : Disk) : Prop where
  ne_root : place ≠ []
  leaf : d.isFolderAt place = false
  items : ∀ q, d'.item? q = if place = q then some (.leaf d.freshId) else d.item? q
  content : ∃ mode, d'.node d.freshId = .file mode bytes
  nodes : ∀ {q id}, d.item? q = some (.leaf id) → d'.node id = d.node id
  cwd : d'.cwd = d.cwd

/-- The new file has taken no other entry's place, and `p` names it. -/
structure Scratch (d : Disk) (p : Path) (place : Place) (bytes : Bytes) (d' : Disk) : Prop
    extends Stored d place bytes d' where
  named : ∃ folder n, d.folderOf p = .ok (folder, .name n false) ∧ Text.utf8Size n ≤ nameLimit ∧
    place = folder ++ [n]
  free : d.item? place = none

variable {d d' after : Disk} {p dst src : Path} {place q : Place} {bytes : Bytes} {folder : Place}
  {n : Name} {last : Last} {final : Final}

theorem leaf_of_isFile (h : d.isFile p) :
    ∃ source node, d.stat p = .ok source ∧ d.node? source = some node ∧ node.isFile := by
  unfold isFile at h
  split at h
  · rename_i source hstat
    obtain ⟨node, hnode, hfile⟩ := (Option.any_eq_true _ _).mp h
    exact ⟨source, node, hstat, hnode, hfile⟩
  · cases h

-- ---------------------------------------------------------------------------
-- A new file
-- ---------------------------------------------------------------------------

namespace Stored

theorem item?_place (h : Stored d place bytes d') : d'.item? place = some (.leaf d.freshId) := by
  simp [h.items]

theorem node?_place (h : Stored d place bytes d') : ∃ mode, d'.node? place = some (.file mode bytes) := by
  obtain ⟨mode, hmode⟩ := h.content
  exact ⟨mode, by rw [node?_of_leaf h.item?_place, hmode]⟩

theorem sameAt (h : Stored d place bytes d') (hq : place ≠ q) : d.SameAt d' q := by
  refine .of_item (by rw [h.items, if_neg hq]) fun _ hi => h.nodes hi

theorem item?_eraseItem_iff (h : Stored d place bytes d') {item : Item} :
    (d'.eraseItem place).item? q = some item ↔ (d.eraseItem place).item? q = some item := by
  rw [item?_eraseItem_eq_some h.ne_root, item?_eraseItem_eq_some h.ne_root, h.items]
  exact and_congr_right fun hq => by rw [if_neg hq]

theorem erase_within_erase (h : Stored d place bytes d') : (d'.eraseItem place).Within (d.eraseItem place) := by
  refine ⟨h.item?_eraseItem_iff.mp, fun hi => ?_⟩
  obtain ⟨-, hi⟩ := (item?_eraseItem_eq_some h.ne_root).mp (h.item?_eraseItem_iff.mp hi)
  exact (h.nodes hi).symm

theorem within_of_erase (h : Stored d place bytes d') : (d.eraseItem place).Within d' := by
  refine ⟨fun hi => ((item?_eraseItem_eq_some h.ne_root).mp (h.item?_eraseItem_iff.mpr hi)).2, fun hi => ?_⟩
  exact h.nodes ((item?_eraseItem_eq_some h.ne_root).mp hi).2

/-- The new file is on the way to no folder. -/
theorem folderOf_erase (h : Stored d place bytes d') (hf : d'.folderOf p = .ok (folder, last)) :
    (d.eraseItem place).folderOf p = .ok (folder, last) := by
  obtain ⟨hc, hl, hr, hfolder⟩ := folderOf_ok.mp hf
  obtain ⟨mode, hm⟩ := isFolderAt_iff.mp hfolder
  have hne : folder ≠ place := by rintro rfl; simp [h.item?_place] at hm
  obtain ⟨_, hnode⟩ := h.content
  have hkept : (d'.eraseItem place).folderOf p = .ok (folder, last) := by
    refine folderOf_ok.mpr ⟨hc, hl, hr.erase h.item?_place (by simp [hnode, Node.isLink]) hne, ?_⟩
    rwa [isFolderAt_eraseItem h.ne_root (Ne.symm hne)]
  exact h.erase_within_erase.folderOf h.cwd.symm hkept

/-- So a path that is good now was good before. -/
theorem folderOf (h : Stored d place bytes d') (hf : d'.folderOf p = .ok (folder, last)) :
    d.folderOf p = .ok (folder, last) :=
  (within_eraseItem h.ne_root).folderOf rfl (h.folderOf_erase hf)

theorem entry? (h : Stored d place bytes d') (he : d'.entry? p = some q) : d.entry? p = some q := by
  obtain ⟨folder, n, slash, hf, hq⟩ := entry?_eq_some.mp he
  exact entry?_eq_some.mpr ⟨folder, n, slash, h.folderOf hf, hq⟩

theorem folderOf_of_route (h : Stored d (folder ++ [n]) bytes d')
    (hf : d.folderOf p = .ok (folder, last)) (hr : (d.eraseItem (folder ++ [n])).Route .follow
      linkLimit (d.start p) ((splitLast p.steps).1 ++ [.slash]) folder) :
    d'.folderOf p = .ok (folder, last) := by
  obtain ⟨hc, hlast, -, hfolder⟩ := folderOf_ok.mp hf
  have hfolder' : d'.isFolderAt folder := by
    simpa [isFolderAt, h.items] using hfolder
  refine folderOf_ok.mpr ⟨hc, hlast, ?_, hfolder'⟩
  rw [Within.start h.cwd]
  exact hr.within h.within_of_erase

theorem unlink_self (h : Stored d place bytes d') (hd : d.WellFormed) (he : d.entry? p = some place)
    (hp : d.isFile p) : d'.unlink p = .ok (d'.eraseItem place) := by
  obtain ⟨source, node, hstat, hsource, -⟩ := leaf_of_isFile hp
  have hs : d.isFolderAt source = false := isFolderAt_of_node? hsource
  obtain ⟨folder, n, slash, hf, rfl⟩ := entry?_eq_some.mp he
  obtain ⟨rfl, -⟩ := route_of_stat_leaf hd hf hstat hs
  obtain ⟨id, hi, hr⟩ := route_without_entry hd hf hstat hs
  obtain ⟨mode, hnode⟩ := h.content
  exact unlink_ok.mpr ⟨folder, n, d.freshId, h.folderOf_of_route hf hr, (hd.names hi n (by simp)).2,
    h.item?_place, by simp [hnode, Node.isFixed], rfl⟩

theorem unlink (h : Stored d place bytes d') (hu : d'.unlink p = .ok after) :
    ∃ q, q ≠ [] ∧ d.entry? p = some q ∧ after = d'.eraseItem q := by
  obtain ⟨folder, n, id, hf, -, -, -, rfl⟩ := unlink_ok.mp hu
  exact ⟨folder ++ [n], by simp, entry?_of_folderOf (h.folderOf hf), rfl⟩

theorem route (h : Stored d (folder ++ [n]) bytes d') (hn : Text.utf8Size n ≤ nameLimit)
    (hf : d'.folderOf p = .ok (folder, .name n false)) (final : Final) :
    d'.Route final linkLimit (d'.start p) p.steps (folder ++ [n]) := by
  obtain ⟨before, hs, hr, hfolder⟩ := folderOf_name hf
  obtain ⟨mode, hnode⟩ := h.content
  rw [hs]
  refine hr.append hfolder (by simp) (by simp) fun links => .leaf hn h.item?_place ?_
  simp [hnode, Node.isLink]

theorem read (h : Stored d (folder ++ [n]) bytes d') (hn : Text.utf8Size n ≤ nameLimit)
    (hf : d'.folderOf p = .ok (folder, .name n false)) : d'.read p = .ok bytes := by
  obtain ⟨_, hnode⟩ := h.node?_place
  have hstat : d'.stat p = .ok (folder ++ [n]) :=
    seek_ok.mpr ⟨(folderOf_ok.mp hf).1, h.route hn hf .follow, by simp [h.item?_place]⟩
  exact bind_eq_ok.mpr ⟨_, hstat, by simp [sourceAt, hnode]⟩

/-- The new file is read by the path that named its place, unless that path went through the very link
that the file has replaced. -/
theorem read_or_through (h : Stored d (folder ++ [n]) bytes d')
    (hn : Text.utf8Size n ≤ nameLimit) (hf : d.folderOf p = .ok (folder, .name n false)) :
    d'.read p = .ok bytes ∨ d.isLinkAt (folder ++ [n]) ∧ (d'.folderOf p).isOk = false := by
  cases hf' : d'.folderOf p with
  | ok found =>
    obtain ⟨above, last⟩ := found
    have hsame := h.folderOf hf'
    rw [hf] at hsame
    cases hsame
    exact .inl (h.read hn hf')
  | error f =>
    refine .inr ⟨?_, rfl⟩
    obtain ⟨-, -, hr, -⟩ := folderOf_ok.mp hf
    have hgone (hr : (d.eraseItem (folder ++ [n])).Route .follow linkLimit (d.start p)
        ((splitLast p.steps).1 ++ [.slash]) folder) : False := by
      have hok := h.folderOf_of_route hf hr
      simp [hf'] at hok
    cases hi : d.item? (folder ++ [n]) with
    | none =>
      have hw : d.Within (d.eraseItem (folder ++ [n])) := by
        refine ⟨fun {q item} hq => ?_, fun _ => rfl⟩
        rw [item?_eraseItem d _ q h.ne_root, if_neg, hq]
        rintro rfl
        simp [hi] at hq
      exact (hgone (hr.within hw)).elim
    | some item =>
      cases item with
      | folder mode =>
        have hleaf := h.leaf
        simp [isFolderAt, hi] at hleaf
      | leaf id =>
        obtain ⟨_, _, target, _, _, _, hlink, -⟩ :=
          (hr.erase_or_through hi (by simp)).resolve_left hgone
        simp [isLinkAt, node?_of_leaf hi, hlink, Node.isLink]

end Stored

-- ---------------------------------------------------------------------------
-- A temporary file
-- ---------------------------------------------------------------------------

namespace Scratch

theorem within (h : Scratch d p place bytes d') : d.Within d' := by
  have hitem {q item} (hi : d.item? q = some item) : d'.item? q = some item := by
    rw [h.items, if_neg, hi]
    rintro rfl
    simp [h.free] at hi
  exact ⟨hitem, h.nodes⟩

theorem wellFormed (h : Scratch d p place bytes d') (hd : d.WellFormed) : d'.WellFormed := by
  obtain ⟨folder, n, hf, hn, rfl⟩ := h.named
  have hadd := hd.addNode (.file 0 []) (folderOf_ok.mp hf).2.2.2 ⟨plain_of_folderOf hf, hn⟩ h.free
  exact hadd.of_item? fun q => by rw [h.items, item?_addNode _ _ _ h.ne_root]

theorem folderOf_iff (h : Scratch d p place bytes d') :
    d'.folderOf dst = .ok (folder, last) ↔ d.folderOf dst = .ok (folder, last) :=
  ⟨h.toStored.folderOf, h.within.folderOf h.cwd⟩

theorem entry?_self (h : Scratch d p place bytes d') : d'.entry? p = some place := by
  obtain ⟨folder, n, hf, -, rfl⟩ := h.named
  exact entry?_of_folderOf (h.folderOf_iff.mpr hf)

theorem yields_iff (h : Scratch d p place bytes d') : d'.Yields dst ↔ d.Yields dst := by
  have hsame (q : Place) : d'.isFolderAt q = d.isFolderAt q ∧ d'.isFixedAt q = d.isFixedAt q := by
    by_cases hq : place = q
    · subst hq
      obtain ⟨mode, hnode⟩ := h.content
      simp [isFolderAt, isFixedAt, node?, h.item?_place, hnode, Node.isFixed, h.free]
    · obtain ⟨hi, hn⟩ := h.sameAt hq
      simp [isFolderAt, isFixedAt, hi, hn]
  simp [Yields, h.folderOf_iff, hsame]

theorem route (h : Scratch d p place bytes d') (final : Final) :
    d'.Route final linkLimit (d'.start p) p.steps place := by
  obtain ⟨folder, n, hf, hn, rfl⟩ := h.named
  exact h.toStored.route hn (h.folderOf_iff.mpr hf) final

theorem checkPath_self (h : Scratch d p place bytes d') : checkPath p = .ok () := by
  obtain ⟨folder, n, hf, -, -⟩ := h.named
  exact (folderOf_ok.mp hf).1

theorem seek (h : Scratch d p place bytes d') : d'.seek final p = .ok place :=
  seek_ok.mpr ⟨h.checkPath_self, h.route final, by simp [h.item?_place]⟩

theorem read (h : Scratch d p place bytes d') : d'.read p = .ok bytes := by
  obtain ⟨folder, n, hf, hn, rfl⟩ := h.named
  exact h.toStored.read hn (h.folderOf_iff.mpr hf)

theorem discard (h : Scratch d p place bytes d') : d.Same (Temp.discard d' p) := by
  obtain ⟨folder, n, hf, hn, rfl⟩ := h.named
  obtain ⟨mode, hnode⟩ := h.content
  have hunlink : d'.unlink p = .ok (d'.eraseItem (folder ++ [n])) :=
    unlink_ok.mpr ⟨folder, n, d.freshId, h.folderOf_iff.mpr hf, hn, h.item?_place,
      by simp [hnode, Node.isFixed], rfl⟩
  rw [Temp.discard, hunlink]
  refine ⟨fun q => .of_item ?_ fun _ hi => h.nodes hi, h.cwd⟩
  rw [item?_eraseItem _ _ _ h.ne_root]
  split
  · rename_i hq
    rw [← hq, h.free]
  · rename_i hq
    rw [h.items, if_neg hq]

theorem of_same (h : Scratch d p place bytes d') (hs : d'.Same after) :
    Scratch d p place bytes after where
  ne_root := h.ne_root
  leaf := h.leaf
  items q := by rw [(hs.entries q).1, h.items]
  content := by
    obtain ⟨mode, hnode⟩ := h.node?_place
    obtain ⟨hi, hn⟩ := hs.entries place
    rw [h.item?_place] at hi
    exact ⟨mode, by simpa [node?, hi] using hn.trans hnode⟩
  nodes {q id} hi := by
    obtain ⟨hi', hn⟩ := hs.entries q
    have hwithin := h.within.item hi
    rw [hwithin] at hi'
    rw [node?_of_leaf hi', node?_of_leaf hwithin, h.nodes hi] at hn
    exact Option.some.inj hn
  cwd := hs.cwd.trans h.cwd
  named := h.named
  free := h.free

-- ---------------------------------------------------------------------------
-- Filling and renaming it
-- ---------------------------------------------------------------------------

theorem setNode {mode : Mode} {data : Bytes} (h : Scratch d p place bytes d') :
    Scratch d p place data (d'.setNode d.freshId (.file mode data)) where
  ne_root := h.ne_root
  leaf := h.leaf
  items q := by rw [item?_setNode, h.items]
  content := ⟨mode, by rw [node_setNode, if_pos rfl]⟩
  nodes hi := by rw [node_setNode, if_neg (ne_freshId_of_item hi).symm, h.nodes hi]
  cwd := h.cwd
  named := h.named
  free := h.free

theorem openWrite (h : Scratch d p place bytes d') (mode : Mode) :
    ∃ opened, d'.openWrite p ⟨true, mode⟩ = .ok (place, opened) ∧ Scratch d p place [] opened := by
  obtain ⟨kept, hnode⟩ := h.content
  refine ⟨d'.setNode d.freshId (.file kept []), ?_, h.setNode⟩
  refine bind_eq_ok.mpr ⟨_, locate_found.mpr ⟨h.checkPath_self, h.route .create⟩, ?_⟩
  simp [h.item?_place, hnode]

theorem append (h : Scratch d p place [] d') (data : Bytes) :
    ∃ filled, d'.append place data = .ok filled ∧ Scratch d p place data filled := by
  obtain ⟨mode, hnode⟩ := h.content
  refine ⟨d'.setNode d.freshId (.file mode data), ?_, h.setNode⟩
  simp [Disk.append, h.item?_place, hnode]

theorem write (h : Scratch d p place bytes d') (data : Bytes) :
    ∃ written, d'.write p data = .ok written ∧ Scratch d p place data written := by
  obtain ⟨opened, ho, h⟩ := h.openWrite newFileMode
  obtain ⟨written, hw, h⟩ := h.append data
  exact ⟨written, bind_eq_ok.mpr ⟨_, ho, mapError_ok_iff.mpr hw⟩, h⟩

/-- A rename that succeeds puts the file, and nothing else, in the place that the new path names. -/
theorem rename (h : Scratch d p place bytes d') (hd : d.WellFormed)
    (hr : d'.rename p dst = .ok after) :
    d.Yields dst ∧ ∃ folder n, d.folderOf dst = .ok (folder, .name n false) ∧
      Text.utf8Size n ≤ nameLimit ∧ Stored d (folder ++ [n]) bytes after := by
  obtain ⟨a, b, item, hp, hb, hi, hcase, hyields⟩ := rename_ok hr
  obtain rfl : place = a := by simpa [h.entry?_self] using hp
  obtain ⟨mode, hnode⟩ := h.node?_place
  have hy : d.Yields dst := h.yields_iff.mp (hyields (by simp [hnode]))
  refine ⟨hy, ?_⟩
  obtain ⟨folder, n, hf, hn, hleaf, -⟩ := hy
  obtain rfl : folder ++ [n] = b := by simpa [entry?_of_folderOf hf] using h.entry? hb
  refine ⟨folder, n, hf, hn, ?_⟩
  rcases hcase with ⟨rfl, hsame | ⟨id, hplace, hb⟩⟩ | ⟨rfl, hab, hba, -⟩
  · exact hsame ▸ h.toStored
  · obtain rfl : d.freshId = id := by simpa [h.item?_place] using hplace
    have hsame : place = folder ++ [n] := by
      by_contra hne
      rw [h.items, if_neg hne] at hb
      exact ne_freshId_of_item hb rfl
    exact hsame ▸ h.toStored
  · have hd' := h.wellFormed hd
    have hleaf' : d'.isFolderAt (folder ++ [n]) = false := by
      obtain ⟨hi, -⟩ := h.sameAt (q := folder ++ [n]) (by rintro rfl; exact hab List.prefix_rfl)
      simpa [isFolderAt, hi] using hleaf
    have hren := renamed_moveItems (d := d') hab hba
    refine ⟨by simp, hleaf, fun q => ?_, h.content, h.nodes,
      (cwd_moveItems_of_leaf hd' h.item?_place).trans h.cwd⟩
    rw [hren.item?_leaf hd' h.item?_place (fun below hne => hd'.item?_below hleaf' hne)]
    split
    · rfl
    · split
      · rename_i hq
        rw [← hq, h.free]
      · rename_i hq
        rw [h.items, if_neg hq]

end Scratch

-- ---------------------------------------------------------------------------
-- Making it
-- ---------------------------------------------------------------------------

theorem scratch_of_createNew {mode : Mode} (h : d.createNew p mode = .ok d') :
    ∃ place, Scratch d p place [] d' := by
  simp only [createNew, bind_eq_ok] at h
  obtain ⟨⟨folder, last⟩, hf, h⟩ := h
  cases last with
  | name n slash =>
    cases slash with
    | true => simp at h
    | false =>
      simp only [Bool.false_eq_true, if_false, bind_eq_ok] at h
      obtain ⟨item, hc, h⟩ := h
      obtain ⟨hn, hi⟩ := child_ok.mp hc
      cases item with
      | some _ => cases h
      | none =>
        cases h
        refine ⟨folder ++ [n], ⟨by simp, by simp [isFolderAt, hi], fun q => ?_, ⟨mode, ?_⟩,
          fun hq => ?_, rfl⟩, ⟨folder, n, hf, hn, rfl⟩, hi⟩
        · rw [item?_addNode d _ _ (by simp)]
        · rw [node_addNode, if_pos rfl]
        · rw [node_addNode, if_neg (ne_freshId_of_item hq).symm]
  | _ => cases h

end Disk

namespace Temp

variable {d d' : Disk} {folder p : Path} {stem : Text}

theorem discard_discard (d : Disk) (p : Path) : discard (discard d p) p = discard d p := by
  cases h : d.unlink p with
  | error f => simp [discard, h]
  | ok after =>
    obtain ⟨folder, n, id, hf, -, -, -, rfl⟩ := Disk.unlink_ok.mp h
    have hne : folder ++ [n] ≠ [] := by simp
    cases hagain : (d.eraseItem (folder ++ [n])).unlink p with
    | error f => simp [discard, h, hagain]
    | ok last =>
      obtain ⟨folder', n', id', hf', -, hi, -, -⟩ := Disk.unlink_ok.mp hagain
      have hsame := (Disk.within_eraseItem hne).folderOf rfl hf'
      rw [hf] at hsame
      cases hsame
      simp [Disk.item?_eraseItem _ _ _ hne] at hi

theorem reserveFrom_ok {n tries : Nat} (h : reserveFrom d folder stem n tries = .ok (p, d')) :
    (∃ k, p = (base d folder).join (name stem (tag k))) ∧ d.createNew p privateFileMode = .ok d' := by
  induction tries generalizing n with
  | zero => cases h
  | succ tries ih =>
    simp only [reserveFrom] at h
    split at h
    · rename_i made hmade
      cases h
      exact ⟨⟨n, rfl⟩, hmade⟩
    · split at h
      · exact ih h
      · cases h

theorem reserve_eq_ok : reserve d folder stem = .ok (p, d') ↔
    (folder.isAbsolute ∨ d.isFolderAt d.cwd) ∧ reserveFrom d folder stem 0 tagLimit = .ok (p, d') := by
  unfold reserve
  split
  · rename_i hrooted
    exact (and_iff_right hrooted).symm
  · rename_i hgone
    exact iff_of_false nofun fun h => hgone h.1

theorem reserve_ok (h : reserve d folder stem = .ok (p, d')) :
    (∃ k, p = (base d folder).join (name stem (tag k))) ∧ ∃ place, d.Scratch p place [] d' := by
  obtain ⟨hname, hmade⟩ := reserveFrom_ok (reserve_eq_ok.mp h).2
  exact ⟨hname, Disk.scratch_of_createNew hmade⟩

end Temp

-- ---------------------------------------------------------------------------
-- Copying to it
-- ---------------------------------------------------------------------------

namespace Disk

variable {d d' : Disk} {p src : Path} {place : Place} {bytes : Bytes}

/-- `p` leads to no regular file that reports another length than its own. -/
def ReportsLength (d : Disk) (p : Path) : Prop :=
  ∀ source mode bytes, d.stat p = .ok source → d.node? source ≠ some (.kernel mode bytes)

/-- A tree whose regular files report their lengths. -/
structure Sound (d : Disk) : Prop where
  tree : d.WellFormed
  lengths : ∀ p, d.ReportsLength p

theorem isFixedAt_of_nodes (h : ∀ entry ∈ d.nodes, entry.2.isFixed = false) (q : Place) : d.isFixedAt q = false := by
  unfold isFixedAt node?
  split
  · rename_i id _
    rw [Option.any_some, node]
    cases hget : d.nodes.get? id with
    | none => rfl
    | some node => exact h _ (Table.mem_of_get? hget)
  · rfl

/-- To be sound is a matter of the listed entries and nodes, so it can be checked. -/
theorem Sound.of_items (hitems : ∀ entry ∈ d.items,
      (∀ n ∈ entry.1, n.CanStand) ∧ d.isFolderAt entry.1.dropLast = true)
    (hnodes : ∀ entry ∈ d.nodes, entry.2.isFixed = false) : d.Sound := by
  refine ⟨.of_items hitems, fun p source mode bytes _ hnode => ?_⟩
  have hfixed := isFixedAt_of_nodes hnodes source
  simp [isFixedAt, hnode, Node.isFixed] at hfixed

theorem Scratch.reportsLength (h : Scratch d p place bytes d') : d'.ReportsLength p := by
  intro source mode data hstat hnode
  obtain ⟨_, hfile⟩ := h.node?_place
  have hplace : d'.stat p = .ok place := h.seek
  obtain rfl : place = source := Except.ok.inj (hplace.symm.trans hstat)
  simp [hfile] at hnode

theorem file_of_isFile (hlen : d.ReportsLength src) (h : d.isFile src) :
    ∃ source mode data, d.stat src = .ok source ∧ d.node? source = some (.file mode data) := by
  obtain ⟨source, node, hstat, hnode, hfile⟩ := leaf_of_isFile h
  cases node with
  | file mode data => exact ⟨source, mode, data, hstat, hnode⟩
  | kernel mode data => exact absurd hnode (hlen source mode data hstat)
  | _ => cases hfile

theorem Scratch.copyFile_reported (h : Scratch d p place bytes d') (hsrc : d.isFile src)
    (durability : Durability) : ∃ size data copied, d.size src = .ok size ∧ d.read src = .ok data ∧
      d'.copyFile src p durability = (true, copied) ∧ Scratch d p place (data.take size) copied := by
  obtain ⟨source, node, hstat, hnode, hfile⟩ := leaf_of_isFile hsrc
  obtain ⟨data, hsource, hle⟩ : ∃ data, d.sourceAt source = .data data ∧ node.size ≤ data.length := by
    cases node with
    | file mode data => exact ⟨data, by simp [sourceAt, hnode], Nat.le_refl _⟩
    | kernel mode data => exact ⟨data, by simp [sourceAt, hnode], Nat.zero_le _⟩
    | _ => cases hfile
  have hstat' : d'.stat src = .ok source := h.within.seek h.cwd hstat
  have hsize' : d'.size src = .ok node.size := by
    simp [Disk.size, hstat', Except.map, sizeAt, h.within.node? hnode]
  obtain ⟨opened, hopen, ho⟩ := h.openWrite newFileMode
  have hnode' : opened.node? source = some node := ho.within.node? hnode
  have hsource' : opened.sourceAt source = .data data := by
    rw [← hsource, sourceAt, sourceAt, hnode', hnode]
  have hbytes : opened.transferred {} source place node.size = data.take node.size := by
    rw [transferred_eq_take, hsource', Source.take]
  obtain ⟨copied, hcopied, hc⟩ := ho.append (data.take node.size)
  refine ⟨node.size, data, copied, ?_, ?_, ?_, hc⟩
  · simp [Disk.size, hstat, Except.map, sizeAt, hnode]
  · exact bind_eq_ok.mpr ⟨source, hstat, by simp [hsource]⟩
  · simp [Disk.copyFile, hsize', copyPrefix, hstat', hopen, hbytes, hcopied, flush_eq, hle]

theorem size_of_reportsLength {size : Nat} {data : Bytes} (hlen : d.ReportsLength src) (h : d.isFile src)
    (hsize : d.size src = .ok size) (hread : d.read src = .ok data) : size = data.length := by
  obtain ⟨source, mode, data', hstat, hnode⟩ := file_of_isFile hlen h
  obtain rfl : data'.length = size := by
    simpa [Disk.size, hstat, Except.map, sizeAt, hnode, Node.size] using hsize
  have hread' : d.read src = .ok data' := bind_eq_ok.mpr ⟨source, hstat, by simp [sourceAt, hnode]⟩
  rw [Except.ok.inj (hread'.symm.trans hread)]

end Disk

end SafeFiles
