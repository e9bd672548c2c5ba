import SafeFiles.Proofs.FileCopyLaws
import SafeFiles.Proofs.Tree.CopyLaws

/-!
# A copy of a tree is a replica

The target of a copy is free and stands apart from the source, so the source
stays as it is while the target grows, and each entry finds its parent's image
made and its own name free. One entry is mirrored by `entry_ok`, the children of
a folder one after the other by `children_ok`, and with them everything below
(`walk_ok`). The text of the two paths does not matter: names joined to it lead
down from the places that the paths lead to.

The mirror image of an entry is a replica of it if the entry is an ordinary one; what
reports no length, as devices and kernel records do, comes out as an empty file.
-/

namespace SafeFiles

/-- A link, or a regular file that reports its length. -/
def Node.isOrdinary : Node → Bool
  | .file _ _ | .link _ => true
  | .device _ | .kernel _ _ => false

namespace Disk

variable {d d' d'' : Disk} {x y a b place source : Place} {rel : List Name} {n : Name} {node : Node} {p : Path}
  {steps : List Step} {here : Place} {item : Item}

-- ---------------------------------------------------------------------------
-- Mirrored entries
-- ---------------------------------------------------------------------------

/-- At `y` stands the copy of what stood at `x`. No copy is made of a link. -/
def Mirrored (d d' : Disk) (x y : Place) : Prop :=
  match d.item? x with
  | none => d'.item? y = none
  | some (.folder _) => d'.item? y = some (.folder newFolderMode)
  | some (.leaf id) =>
    if (d.node id).isLink then d'.item? y = none
    else d'.node? y = some (.file newFileMode (d.node id).copiedBytes)

theorem Mirrored.of_missing (hsource : d.item? x = none) (htarget : d'.item? y = none) : d.Mirrored d' x y := by
  simpa [Mirrored, hsource] using htarget

theorem Mirrored.sameAt (h : d.Mirrored d' x y) (hs : d'.SameAt d'' y) : d.Mirrored d'' x y := by
  unfold Mirrored at h ⊢
  rwa [hs.1, hs.2]

/-- From `b` down stands what stood from `a` down, without the links: folders for folders, and regular files with the
same bytes for regular files. -/
structure Replicated (d d' : Disk) (a b : Place) : Prop where
  paths : ∀ rel, (d'.item? (b ++ rel)).isSome = (d.isFolderAt (a ++ rel) || d.isFileAt (a ++ rel))
  folders : ∀ rel, d'.isFolderAt (b ++ rel) = d.isFolderAt (a ++ rel)
  files : ∀ rel bytes, (∃ mode, d'.node? (b ++ rel) = some (.file mode bytes)) ↔
    ∃ mode, d.node? (a ++ rel) = some (.file mode bytes)

theorem Replicated.of_mirrored (hordinary : ∀ rel node, d.node? (a ++ rel) = some node → node.isOrdinary)
    (h : ∀ rel, d.Mirrored d' (a ++ rel) (b ++ rel)) : d.Replicated d' a b := by
  have hentry (rel : List Name) : (d'.item? (b ++ rel)).isSome = (d.isFolderAt (a ++ rel) || d.isFileAt (a ++ rel)) ∧
      d'.isFolderAt (b ++ rel) = d.isFolderAt (a ++ rel) ∧
      ∀ bytes, (∃ mode, d'.node? (b ++ rel) = some (.file mode bytes)) ↔
        ∃ mode, d.node? (a ++ rel) = some (.file mode bytes) := by
    have himage := h rel
    have hnode := hordinary rel
    unfold Mirrored at himage
    cases hi : d.item? (a ++ rel) with
    | none =>
      simp only [hi] at himage
      simp [isFolderAt, isFileAt, node?, hi, himage]
    | some item =>
      cases item with
      | folder mode =>
        simp only [hi] at himage
        simp [isFolderAt, node?, hi, himage]
      | leaf id =>
        simp only [hi, node?_of_leaf hi, Option.some.injEq, forall_eq'] at himage hnode
        cases hid : d.node id with
        | file mode bytes =>
          simp only [hid, Node.isLink, Bool.false_eq_true, if_false, Node.copiedBytes] at himage
          obtain ⟨copied, hcopied, -⟩ := leaf_of_node? himage
          simp [isFolderAt, isFileAt, node?_of_leaf hi, hi, hid, himage, hcopied, Node.isFile]
        | link target =>
          simp only [hid, Node.isLink, if_true] at himage
          simp [isFolderAt, isFileAt, node?, hi, hid, himage, Node.isFile]
        | device kind => simp [hid, Node.isOrdinary] at hnode
        | kernel mode bytes => simp [hid, Node.isOrdinary] at hnode
  exact ⟨fun rel => (hentry rel).1, fun rel => (hentry rel).2.1, fun rel => (hentry rel).2.2⟩

theorem SameAt.kindAt (h : d.SameAt d' x) : d'.kindAt x = d.kindAt x := by
  unfold Disk.kindAt isFolderAt
  rw [h.1, h.isLinkAt]

theorem kindAt_eq_folder_iff : d.kindAt x = .folder ↔ d.isFolderAt x = true := by
  unfold kindAt
  split
  · simp [*]
  · split <;> simp [*]

-- ---------------------------------------------------------------------------
-- A file that is copied to a new name
-- ---------------------------------------------------------------------------

theorem copyFile_free {src dst : Path} {folder : Place} (hd : d.WellFormed) (hstat : d.stat src = .ok source)
    (hsource : d.node? source = some node) (hlink : node.isLink = false)
    (hfree : d.locate .create dst = .ok (.free folder n)) (hn : n.IsPlain) (durability : Durability) :
    ∃ d', d.copyFile src dst durability = (true, d') ∧ Grown (folder ++ [n]) d d' ∧
      d'.node? (folder ++ [n]) = some (.file newFileMode node.copiedBytes) := by
  obtain ⟨-, hend⟩ := locate_free hfree
  obtain ⟨id, hi, -⟩ := leaf_of_node? hsource
  have hother : d.item? source ≠ d.item? (folder ++ [n]) := by simp [hi, hend.free]
  obtain ⟨hok, hfilled⟩ := (Receives.free hfree).copyFile hstat hsource hlink hother durability {}
  refine ⟨_, Prod.ext hok rfl, ?_, by simp [hfilled.content, modeOver, hend.free]⟩
  refine copyFile_keeps (fun place opened ho => ?_) (.refl hd _)
  obtain ⟨hg, hnew⟩ := (Grown.refl hd (folder ++ [n])).openWrite ho
    (fun _ _ hl => by cases hfree.symm.trans hl; exact ⟨List.prefix_rfl, hn, hend.size⟩)
    (fun hl => by cases hfree.symm.trans hl)
  exact ⟨hg, fun bytes after ha => hg.append hnew ha⟩

end Disk

-- ---------------------------------------------------------------------------
-- The source and the target of a copy
-- ---------------------------------------------------------------------------

namespace TreeCopy

variable {c : TreeCopy} {d d' : Disk} {a b : Place} {rel : List Name} {n : Name} {item : Item} {s : Session}
  {items : List (Name × EntryKind)} {walk : List Name → EntryKind → Session → Except Report Unit × Session}

/-- `c` copies the folder at `a` to the free place `b`, which stands in a folder that is not `a` and not
below it. All paths of the source and of the target are short enough. -/
structure Copies (c : TreeCopy) (d : Disk) (a b : Place) : Prop where
  tree : d.WellFormed
  source : d.lstat c.src = .ok a
  isFolder : d.isFolderAt a
  target : ∃ above n slash, d.folderOf c.dst = .ok (above, .name n slash) ∧ Text.utf8Size n ≤ nameLimit ∧
    b = above ++ [n] ∧ ¬ a <+: above
  free : d.item? b = none
  short : ∀ rel, (d.item? (a ++ rel)).isSome → Text.utf8Size (c.sourcePath rel) < pathLimit ∧
    Text.utf8Size (c.targetPath rel) < pathLimit

namespace Copies

theorem of_items (hd : d.WellFormed) (hl : d.lstat c.src = .ok a) (hf : d.isFolderAt a)
    (ht : ∃ above n slash, d.folderOf c.dst = .ok (above, .name n slash) ∧ Text.utf8Size n ≤ nameLimit ∧
      b = above ++ [n] ∧ ¬ a <+: above) (hfree : d.item? b = none) (hne : a ≠ [])
    (h : ∀ entry ∈ d.items, Text.utf8Size (c.sourcePath (entry.1.drop a.length)) < pathLimit ∧
      Text.utf8Size (c.targetPath (entry.1.drop a.length)) < pathLimit) : c.Copies d a b := by
  refine ⟨hd, hl, hf, ht, hfree, fun rel hs => ?_⟩
  obtain ⟨item, hi⟩ := Option.isSome_iff_exists.mp hs
  rw [Disk.item?_eq_get? (by simp [hne])] at hi
  simpa using h _ (Table.mem_of_get? hi)

theorem plain (h : c.Copies d a b) (hi : (d.item? (a ++ rel)).isSome) : ∀ n ∈ rel, n.IsPlain := by
  obtain ⟨item, hi⟩ := Option.isSome_iff_exists.mp hi
  exact fun n hn => (h.tree.names hi n (by simp [hn])).1

theorem apart (h : c.Copies d a b) (rel : List Name) : ¬ b <+: a ++ rel := by
  intro hb
  obtain ⟨above, n, slash, -, -, rfl, hapart⟩ := h.target
  obtain ⟨mode, hm⟩ := Disk.isFolderAt_iff.mp h.isFolder
  rcases List.prefix_or_prefix_of_prefix hb (List.prefix_append a rel) with hba | hab
  · simp [h.tree.item?_at_or_below h.free hba] at hm
  · rcases List.prefix_concat_iff.mp hab with rfl | hab
    · simp [h.free] at hm
    · exact hapart hab

theorem source_same (h : c.Copies d a b) (hg : Disk.Grown b d d') (rel : List Name) :
    d.SameAt d' (a ++ rel) := hg.sameAt (h.apart rel)

theorem stat_source (h : c.Copies d a b) (hg : Disk.Grown b d d') (hi : (d.item? (a ++ rel)).isSome)
    (hlink : d.isLinkAt (a ++ rel) = false) : d'.stat (c.sourcePath rel) = .ok (a ++ rel) := by
  obtain ⟨hc, hlook, -⟩ := Disk.seek_ok.mp h.source
  exact Disk.Within.seek hg.within hg.cwd (Disk.stat_foldl_join h.tree hc (hlook.follow_of_look h.isFolder) h.isFolder
    hi hlink (h.short rel hi).1)

theorem route_target (h : c.Copies d a b) (hg : Disk.Grown b d d') (hf : d'.isFolderAt (b ++ rel)) :
    d'.Route .follow linkLimit (d'.start c.dst) (c.dst.bare ++ rel.map .down) (b ++ rel) := by
  obtain ⟨above, n, slash, htarget, hn, rfl, -⟩ := h.target
  obtain ⟨before, hs, hr, hfolder⟩ := Disk.folderOf_name (hg.within.folderOf hg.cwd htarget)
  have hb : d'.isFolderAt (above ++ [n]) := by
    by_cases hnil : rel = []
    · simpa [hnil] using hf
    · obtain ⟨mode, hm⟩ := Disk.isFolderAt_iff.mp hf
      exact hg.tree.isFolderAt_above rel hnil (by rw [hm]; rfl)
  obtain ⟨mode, hm⟩ := Disk.isFolderAt_iff.mp hb
  rw [Path.bare_of_steps _ hs]
  refine Disk.Route.down hg.tree (hr.append hfolder (by simp) (by simp) fun _ => ?_) hb hf
  exact .folder (by simp) hn hm .done

theorem checkPath_target (h : c.Copies d a b) (hi : (d.item? (a ++ rel)).isSome) :
    Disk.checkPath (c.targetPath rel) = .ok () := by
  obtain ⟨above, n, slash, htarget, -⟩ := h.target
  have hplain := h.plain hi
  have hshort := (h.short rel hi).2
  rw [targetPath_eq hplain] at hshort ⊢
  exact Disk.checkPath_foldl_join hplain (Disk.folderOf_ok.mp htarget).1 hshort

theorem size_of_entry (h : c.Copies d a b) (hi : (d.item? (a ++ (rel ++ [n]))).isSome) :
    Text.utf8Size n ≤ nameLimit := by
  obtain ⟨item, hi⟩ := Option.isSome_iff_exists.mp hi
  exact (h.tree.names hi n (by simp)).2

theorem folderOf_target (h : c.Copies d a b) (hg : Disk.Grown b d d') (hi : (d.item? (a ++ rel)).isSome)
    (hparent : rel ≠ [] → d'.isFolderAt (b ++ rel.dropLast)) :
    ∃ above n slash, d'.folderOf (c.targetPath rel) = .ok (above, .name n slash) ∧
      Text.utf8Size n ≤ nameLimit ∧ b ++ rel = above ++ [n] := by
  rcases List.eq_nil_or_concat rel with rfl | ⟨init, m, rfl⟩
  · obtain ⟨above, n, slash, htarget, hn, hb, -⟩ := h.target
    exact ⟨above, n, slash, hg.within.folderOf hg.cwd htarget, hn, by simpa using hb⟩
  · rw [List.concat_eq_append] at hi hparent ⊢
    have hplain := h.plain hi
    have hf : d'.isFolderAt (b ++ init) := by simpa using hparent (by simp)
    have hc := h.checkPath_target hi
    have hroute := h.route_target hg hf
    rw [targetPath_eq hplain] at hc ⊢
    refine ⟨b ++ init, m, false, Disk.folderOf_ok.mpr ⟨hc, ?_, ?_, hf⟩, h.size_of_entry hi, by simp⟩
    · rw [Path.steps_foldl_join _ hplain, Disk.splitLast_concat]
    · rw [Path.steps_foldl_join _ hplain, Disk.splitLast_concat, Disk.start_foldl_join _ _ hplain]
      exact hroute.append_slash hf

theorem locate_target (h : c.Copies d a b) (hg : Disk.Grown b d d') (hi : (d.item? (a ++ (rel ++ [n]))).isSome)
    (hf : d'.isFolderAt (b ++ rel)) (hfree : d'.item? (b ++ (rel ++ [n])) = none) :
    d'.locate .create (c.targetPath (rel ++ [n])) = .ok (.free (b ++ rel) n) := by
  have hplain := h.plain hi
  have hc := h.checkPath_target hi
  rw [targetPath_eq hplain] at hc ⊢
  refine bind_eq_ok.mpr ⟨(), hc, mapError_ok_iff.mpr ?_⟩
  rw [Disk.start_foldl_join _ _ hplain, Path.steps_foldl_join _ hplain]
  exact (h.route_target hg hf).walk_free hf (h.size_of_entry hi) (by simpa using hfree)

end Copies

-- ---------------------------------------------------------------------------
-- One entry
-- ---------------------------------------------------------------------------

theorem folder_ok {mode : Mode} (h : c.Copies d a b) (hg : Disk.Grown b d s.disk)
    (hitem : d.item? (a ++ rel) = some (.folder mode)) (hparent : rel ≠ [] → s.disk.isFolderAt (b ++ rel.dropLast))
    (hfree : s.disk.item? (b ++ rel) = none) :
    ∃ s', c.entry rel .folder s = (.ok (), s') ∧ Disk.Grown (b ++ rel) s.disk s'.disk ∧
      s'.disk.item? (b ++ rel) = some (.folder newFolderMode) ∧
      ∀ below, below ≠ [] → s'.disk.item? (b ++ rel ++ below) = none := by
  have hbelow (below : List Name) : s.disk.item? (b ++ rel ++ below) = none :=
    hg.tree.item?_at_or_below hfree (List.prefix_append _ _)
  have hi : (d.item? (a ++ rel)).isSome := by simp [hitem]
  obtain ⟨above, n, slash, hf, hn, hplace⟩ := h.folderOf_target hg hi hparent
  rw [hplace] at hfree hbelow ⊢
  have hmake : s.disk.makeFolder (c.targetPath rel) =
      .ok (s.disk.setItem (above ++ [n]) (.folder newFolderMode)) :=
    Disk.makeFolder_ok.mpr ⟨above, n, slash, hf, hn, hfree, rfl⟩
  have hne : c.targetPath rel ≠ [] := (Disk.checkPath_ok (h.checkPath_target hi)).2.1
  have hmakes : s.disk.makeFolders (c.targetPath rel) =
      (.ok (), s.disk.setItem (above ++ [n]) (.folder newFolderMode)) := by
    rw [Disk.makeFolders, Path.ancestors, Disk.makeFoldersFrom, if_neg hne, hmake]
  refine ⟨s.withDisk (s.disk.setItem (above ++ [n]) (.folder newFolderMode)), ?_, ?_, ?_, fun below hb => ?_⟩
  · rw [entry]
    simp only [hmakes]
  · exact .setFolder hg.tree (Disk.folderOf_ok.mp hf).2.2.2 ⟨Disk.plain_of_folderOf hf, hn⟩ hfree _
  · simp [Disk.item?_setItem]
  · rw [Session.disk_withDisk, Disk.item?_setItem _ _ _ _ (by simp), if_neg (by simpa using hb), hbelow]

theorem file_ok {id : NodeId} (h : c.Copies d a b) (hg : Disk.Grown b d s.disk)
    (hitem : d.item? (a ++ rel) = some (.leaf id)) (hlink : (d.node id).isLink = false)
    (hparent : rel ≠ [] → s.disk.isFolderAt (b ++ rel.dropLast)) (hfree : s.disk.item? (b ++ rel) = none) :
    ∃ s', c.entry rel .other s = (.ok (), s') ∧ Disk.Grown (b ++ rel) s.disk s'.disk ∧
      s'.disk.node? (b ++ rel) = some (.file newFileMode (d.node id).copiedBytes) ∧
      ∀ below, below ≠ [] → s'.disk.item? (b ++ rel ++ below) = none := by
  have hi : (d.item? (a ++ rel)).isSome := by simp [hitem]
  have hnode := Disk.node?_of_leaf hitem
  obtain ⟨init, m, rfl⟩ := (List.eq_nil_or_concat rel).resolve_left fun hnil => by
    subst hnil
    rw [List.append_nil] at hitem
    have hleaf := Disk.isFolderAt_of_leaf hitem
    simp [h.isFolder] at hleaf
  rw [List.concat_eq_append] at *
  have hf : s.disk.isFolderAt (b ++ init) := by simpa using hparent (by simp)
  have hstat := h.stat_source hg hi (by simp [Disk.isLinkAt, hnode, hlink])
  obtain ⟨d', hcopy, hgrown, hcopied⟩ := Disk.copyFile_free hg.tree hstat (hg.within.node? hnode) hlink
    (h.locate_target hg hi hf hfree) (h.plain hi m (by simp)) c.durability
  rw [List.append_assoc] at hgrown hcopied
  refine ⟨s.withDisk d', ?_, hgrown, hcopied, fun below hb => ?_⟩
  · rw [entry]
    simp only [hcopy]
  · exact hgrown.tree.item?_below (Disk.isFolderAt_of_node? hcopied) hb

/-- An entry whose name is free in its parent's image is mirrored, without what is in it. -/
theorem entry_ok (h : c.Copies d a b) (hg : Disk.Grown b d s.disk) (hi : (d.item? (a ++ rel)).isSome)
    (hparent : rel ≠ [] → s.disk.isFolderAt (b ++ rel.dropLast)) (hfree : s.disk.item? (b ++ rel) = none) :
    ∃ s', c.entry rel (d.kindAt (a ++ rel)) s = (.ok (), s') ∧ Disk.Grown (b ++ rel) s.disk s'.disk ∧
      d.Mirrored s'.disk (a ++ rel) (b ++ rel) ∧
      ∀ below, below ≠ [] → s'.disk.item? (b ++ rel ++ below) = none := by
  obtain ⟨item, hitem⟩ := Option.isSome_iff_exists.mp hi
  cases item with
  | folder mode =>
    obtain ⟨s', hentry, hgrown, hmade, hbelow⟩ := folder_ok h hg hitem hparent hfree
    rw [Disk.kindAt_eq_folder_iff.mpr (Disk.isFolderAt_of_item hitem)]
    exact ⟨s', hentry, hgrown, by simpa [Disk.Mirrored, hitem] using hmade, hbelow⟩
  | leaf id =>
    have hleaf := Disk.isFolderAt_of_leaf hitem
    have hnode := Disk.node?_of_leaf hitem
    cases hlink : (d.node id).isLink with
    | true =>
      refine ⟨s.log .warn "copy: skipping symlink" [Record.text "path" (c.sourcePath rel)], ?_, ?_, ?_,
        fun below _ => ?_⟩
      · simp [Disk.kindAt, hleaf, Disk.isLinkAt, hnode, hlink, entry]
      · exact .refl hg.tree _
      · simp [Disk.Mirrored, hitem, hlink, hfree]
      · exact hg.tree.item?_at_or_below hfree (List.prefix_append _ _)
    | false =>
      obtain ⟨s', hentry, hgrown, hcopied, hbelow⟩ := file_ok h hg hitem hlink hparent hfree
      have hkind : d.kindAt (a ++ rel) = .other := by simp [Disk.kindAt, hleaf, Disk.isLinkAt, hnode, hlink]
      rw [hkind]
      exact ⟨s', hentry, hgrown, by simpa [Disk.Mirrored, hitem, hlink] using hcopied, hbelow⟩

-- ---------------------------------------------------------------------------
-- A folder and what is in it
-- ---------------------------------------------------------------------------

/-- If each child is mirrored when its turn comes, all are, and they do not disturb one another. -/
theorem children_ok (hdistinct : (items.map Prod.fst).Nodup)
    (hwalk : ∀ item ∈ items, ∀ s, Disk.Grown b d s.disk → s.disk.isFolderAt (b ++ rel) →
      s.disk.item? (b ++ (rel ++ [item.1])) = none → ∃ s', walk (rel ++ [item.1]) item.2 s = (.ok (), s') ∧
        Disk.Grown (b ++ (rel ++ [item.1])) s.disk s'.disk ∧
        ∀ below, d.Mirrored s'.disk (a ++ (rel ++ item.1 :: below)) (b ++ (rel ++ item.1 :: below)))
    (hg : Disk.Grown b d s.disk) (hf : s.disk.isFolderAt (b ++ rel))
    (hfree : ∀ item ∈ items, s.disk.item? (b ++ (rel ++ [item.1])) = none) :
    ∃ s', walkEach walk rel items (.ok (), s) = (.ok (), s') ∧ Disk.Grown (b ++ rel) s.disk s'.disk ∧
      (∀ q, (∀ item ∈ items, ¬ b ++ (rel ++ [item.1]) <+: q) → s.disk.SameAt s'.disk q) ∧
      ∀ item ∈ items, ∀ below, d.Mirrored s'.disk (a ++ (rel ++ item.1 :: below)) (b ++ (rel ++ item.1 :: below)) := by
  induction items generalizing s with
  | nil => exact ⟨s, rfl, .refl hg.tree _, fun q _ => .refl _ q, by simp⟩
  | cons item items ih =>
    obtain ⟨hitem, hdistinct⟩ := List.nodup_cons.mp hdistinct
    obtain ⟨s₁, hwalked, hgrown, hmirrored⟩ :=
      hwalk item List.mem_cons_self s hg hf (hfree item List.mem_cons_self)
    have hbelow : b ++ rel <+: b ++ (rel ++ [item.1]) := ⟨[item.1], by simp⟩
    -- Two children of one folder have different names, so neither is below the other.
    have hapart {m k : Name} {below : List Name} (hne : m ≠ k) : ¬ b ++ (rel ++ [m]) <+: b ++ (rel ++ k :: below) := by
      simpa using hne
    have hne {other : Name × EntryKind} (hother : other ∈ items) : other.1 ≠ item.1 := fun heq =>
      hitem (heq ▸ List.mem_map_of_mem hother)
    have hfree' : ∀ other ∈ items, s₁.disk.item? (b ++ (rel ++ [other.1])) = none := by
      intro other hother
      rw [(hgrown.sameAt (hapart (hne hother).symm)).1]
      exact hfree other (List.mem_cons_of_mem item hother)
    obtain ⟨s', hwalks, hgrown', hsame, hmirrored'⟩ := ih hdistinct
      (fun other hother => hwalk other (List.mem_cons_of_mem item hother))
      (hg.trans hgrown ((List.prefix_append _ _).trans hbelow)) (hgrown.within.isFolderAt hf) hfree'
    refine ⟨s', ?_, (hgrown.mono hbelow).trans hgrown' List.prefix_rfl, fun q hq => ?_, ?_⟩
    · rw [walkEach_cons, hwalked]
      exact hwalks
    · exact (hgrown.sameAt (hq item List.mem_cons_self)).trans
        (hsame q fun other hother => hq other (List.mem_cons_of_mem item hother))
    · rintro other hother below
      rcases List.mem_cons.mp hother with rfl | hother
      · exact (hmirrored below).sameAt (hsame _ fun k hk => hapart (hne hk))
      · exact hmirrored' other hother below

section Walking

variable {depth : Nat} (h : c.Copies d a b) (hg : Disk.Grown b d s.disk) (hi : (d.item? (a ++ rel)).isSome)
  (hparent : rel ≠ [] → s.disk.isFolderAt (b ++ rel.dropLast)) (hfree : s.disk.item? (b ++ rel) = none)

include h hg hi hparent hfree

theorem leaf_walked (hf : d.isFolderAt (a ++ rel) = false) :
    ∃ s', c.within (depth + 1) rel (d.kindAt (a ++ rel)) s = (.ok (), s') ∧ Disk.Grown (b ++ rel) s.disk s'.disk ∧
      ∀ below, d.Mirrored s'.disk (a ++ (rel ++ below)) (b ++ (rel ++ below)) := by
  obtain ⟨s', hentry, hgrown, hmirrored, hnothing⟩ := entry_ok h hg hi hparent hfree
  have hkind : d.kindAt (a ++ rel) ≠ .folder := by
    rw [Ne, Disk.kindAt_eq_folder_iff, hf]
    simp
  have hne : rel ≠ [] := by
    rintro rfl
    rw [List.append_nil, h.isFolder] at hf
    cases hf
  refine ⟨s', ?_, hgrown, fun below => ?_⟩
  · rw [within_leaf c depth hkind hne, hentry]
  · by_cases hb : below = []
    · simpa [hb] using hmirrored
    · rw [← List.append_assoc, ← List.append_assoc]
      exact .of_missing (h.tree.item?_below hf hb) (hnothing below hb)

/-- A folder is mirrored with all that is in it if each of its children is when its turn comes. -/
theorem folder_walked (hf : d.isFolderAt (a ++ rel))
    (hchild : ∀ n s, Disk.Grown b d s.disk → (d.item? (a ++ (rel ++ [n]))).isSome → s.disk.isFolderAt (b ++ rel) →
      s.disk.item? (b ++ (rel ++ [n])) = none →
      ∃ s', c.within depth (rel ++ [n]) (d.kindAt (a ++ (rel ++ [n]))) s = (.ok (), s') ∧
        Disk.Grown (b ++ (rel ++ [n])) s.disk s'.disk ∧
        ∀ below, d.Mirrored s'.disk (a ++ (rel ++ n :: below)) (b ++ (rel ++ n :: below))) :
    ∃ s', c.within (depth + 1) rel (d.kindAt (a ++ rel)) s = (.ok (), s') ∧ Disk.Grown (b ++ rel) s.disk s'.disk ∧
      ∀ below, d.Mirrored s'.disk (a ++ (rel ++ below)) (b ++ (rel ++ below)) := by
  obtain ⟨s₁, hentry, hgrown, hmirrored, hnothing⟩ := entry_ok h hg hi hparent hfree
  simp only [List.append_assoc] at hnothing
  have hg₁ := hg.trans hgrown (List.prefix_append _ _)
  obtain ⟨mode, hm⟩ := Disk.isFolderAt_iff.mp hf
  have hstat := h.stat_source hg hi (by simp [Disk.isLinkAt, Disk.node?, hm])
  have himage : s₁.disk.isFolderAt (b ++ rel) := by
    simp only [Disk.Mirrored, hm] at hmirrored
    exact Disk.isFolderAt_of_item hmirrored
  have hmem (n : Name) : n ∈ s₁.disk.names (a ++ rel) ↔ (d.item? (a ++ (rel ++ [n]))).isSome := by
    rw [Disk.mem_names_iff, List.append_assoc, (h.source_same hg₁ _).1]
  have hitem {item : Name × EntryKind} (hi : item ∈ s₁.disk.entries (a ++ rel)) :
      item.1 ∈ s₁.disk.names (a ++ rel) ∧ item.2 = d.kindAt (a ++ (rel ++ [item.1])) := by
    obtain ⟨n, hn, rfl⟩ := List.mem_map.mp hi
    exact ⟨hn, by rw [List.append_assoc, (h.source_same hg₁ _).kindAt]⟩
  have hdistinct : ((s₁.disk.entries (a ++ rel)).map Prod.fst).Nodup :=
    Disk.map_fst_entries s₁.disk (a ++ rel) ▸ Disk.nodup_names s₁.disk (a ++ rel)
  obtain ⟨s', hfold, hgrown', hsame, hmirrored'⟩ := children_ok (a := a) hdistinct
    (fun item hmade s₂ hg₂ hf₂ hfree₂ => by
      obtain ⟨hn, hkind⟩ := hitem hmade
      have hwalk := hchild item.1 s₂ hg₂ ((hmem item.1).mp hn) hf₂ hfree₂
      rwa [← hkind] at hwalk)
    hg₁ himage (fun item _ => hnothing [item.1] (by simp))
  refine ⟨s', ?_, hgrown.trans hgrown' List.prefix_rfl, fun below => ?_⟩
  · rw [within_listed (.inl (Disk.kindAt_eq_folder_iff.mpr hf)) hstat (hg.within.isFolderAt hf) hentry]
    exact hfold
  · cases below with
    | nil =>
      have hsame := hsame (b ++ rel) fun _ _ hp => absurd hp.length_le (by simp)
      simpa using hmirrored.sameAt hsame
    | cons n below =>
      by_cases hn : n ∈ s₁.disk.names (a ++ rel)
      · exact hmirrored' _ (List.mem_map_of_mem hn) below
      · have hsame := hsame (b ++ (rel ++ n :: below)) fun item hmade hp => by
          have hname : item.1 = n := by simpa using hp
          exact hn (hname ▸ (hitem hmade).1)
        have hnone : d.item? (a ++ (rel ++ [n])) = none := by simpa using fun hs => hn ((hmem n).mpr hs)
        exact .of_missing (h.tree.item?_at_or_below hnone ⟨below, by simp⟩)
          (hsame.1.trans (hnothing (n :: below) (by simp)))

end Walking

theorem walk_ok (h : c.Copies d a b) (depth : Nat) (hg : Disk.Grown b d s.disk)
    (hi : (d.item? (a ++ rel)).isSome) (hparent : rel ≠ [] → s.disk.isFolderAt (b ++ rel.dropLast))
    (hfree : s.disk.item? (b ++ rel) = none)
    (hdepth : ∀ below, (d.item? (a ++ (rel ++ below))).isSome → below.length < depth) :
    ∃ s', c.within depth rel (d.kindAt (a ++ rel)) s = (.ok (), s') ∧ Disk.Grown (b ++ rel) s.disk s'.disk ∧
      ∀ below, d.Mirrored s'.disk (a ++ (rel ++ below)) (b ++ (rel ++ below)) := by
  induction depth generalizing rel s with
  | zero => exact absurd (hdepth [] (by simpa using hi)) (by simp)
  | succ depth ih =>
    cases hf : d.isFolderAt (a ++ rel) with
    | false => exact leaf_walked h hg hi hparent hfree hf
    | true =>
      refine folder_walked h hg hi hparent hfree hf fun n s₂ hg₂ hi₂ hf₂ hfree₂ => ?_
      have hwalk := ih hg₂ hi₂ (fun _ => by simpa using hf₂) hfree₂
        (fun below hb => by simpa using hdepth (n :: below) (by simpa using hb))
      simpa using hwalk

-- ---------------------------------------------------------------------------
-- The whole copy
-- ---------------------------------------------------------------------------

theorem Copies.not_there (h : c.Copies d a b) : d.there c.dst = false := by
  obtain ⟨above, n, slash, htarget, -, rfl, -⟩ := h.target
  obtain ⟨before, hs, hr, -⟩ := Disk.folderOf_name htarget
  cases hthere : d.stat c.dst with
  | error f => simp [Disk.there, hthere, Except.isOk, Except.toBool]
  | ok place =>
    obtain ⟨-, hto, -⟩ := Disk.seek_ok.mp hthere
    rw [hs] at hto
    have hsome := hto.item?_next hr
    simp [h.free] at hsome

theorem run_ok (h : c.Copies s.disk a b) : (c.run s).1 = .ok () ∧ Disk.Grown b s.disk (c.run s).2.disk ∧
    ∀ rel, s.disk.Mirrored (c.run s).2.disk (a ++ rel) (b ++ rel) := by
  have ha : (s.disk.item? (a ++ [])).isSome := by
    obtain ⟨mode, hm⟩ := Disk.isFolderAt_iff.mp h.isFolder
    simp [hm]
  have hstat : s.disk.stat c.src = .ok a := by
    obtain ⟨mode, hm⟩ := Disk.isFolderAt_iff.mp h.isFolder
    simpa [sourcePath] using h.stat_source (.refl h.tree b) ha (by simp [Disk.isLinkAt, Disk.node?, hm])
  have hfolder : s.disk.isFolder c.src = true := by simp [Disk.isFolder, hstat, h.isFolder]
  -- Each name makes the path of an entry longer, so the walk is deep enough.
  have hdepth (below : List Name) (hb : (s.disk.item? (a ++ ([] ++ below))).isSome) : below.length < pathLimit := by
    have hlength := Path.length_le_utf8Size_foldl_join c.src (h.plain hb)
    have hshort := (h.short below hb).1
    rw [sourcePath] at hshort
    simp only [List.nil_append] at hlength
    omega
  obtain ⟨s', hwalk, hgrown, hmirrored⟩ := walk_ok h pathLimit (.refl h.tree b) ha (fun hne => absurd rfl hne)
    (by simpa using h.free) hdepth
  rw [List.append_nil] at hwalk hgrown
  have hrun : c.run s = (.ok (), s'.log .info "tree copied" [Record.text "src" c.src, Record.text "dst" c.dst]) := by
    simp [run, hfolder, h.not_there, h.source, hwalk]
  rw [hrun]
  exact ⟨rfl, hgrown, hmirrored⟩

end TreeCopy

namespace Session

/-- A copy of a folder that holds ordinary entries succeeds, is a replica of it, and leaves all else as it is. -/
theorem copyTree_replicates (s : Session) (src dst : Path) (durability : Durability) {a b : Place}
    (h : TreeCopy.Copies ⟨src, dst, durability⟩ s.disk a b)
    (hordinary : ∀ rel node, s.disk.node? (a ++ rel) = some node → node.isOrdinary) :
    (s.copyTree src dst durability).1 = .ok () ∧
      s.disk.Replicated (s.copyTree src dst durability).2.disk a b ∧
      (∀ q, ¬ b <+: q → s.disk.SameAt (s.copyTree src dst durability).2.disk q) ∧
      (s.copyTree src dst durability).2.disk.cwd = s.disk.cwd := by
  obtain ⟨hok, hgrown, hmirrored⟩ := TreeCopy.run_ok h
  exact ⟨hok, .of_mirrored hordinary hmirrored, fun q hq => hgrown.sameAt hq, hgrown.cwd⟩

def mixedTree : Session where
  world := { disk := {
    items := [([['d']], .folder 0o755), ([['d'], ['f']], .leaf 0), ([['d'], ['g']], .leaf 0),
      ([['d'], ['e']], .folder 0o700), ([['d'], ['s']], .folder 0o755), ([['d'], ['s'], ['z']], .leaf 1),
      ([['d'], ['x']], .leaf 2), ([['d'], ['y']], .leaf 3)]
    nodes := [(0, .file 0o644 [1, 2]), (1, .file 0o600 []), (2, .link ['n']), (3, .link ['y'])]
    cwd := [] } }

theorem mixedTree_replicated :
    TreeCopy.Copies ⟨"d//.".toList, "d/../t/".toList, .full⟩ mixedTree.disk [['d']] [['t']] ∧
    (∀ rel node, mixedTree.disk.node? ([['d']] ++ rel) = some node → node.isOrdinary) ∧
    (mixedTree.copyTree "d//.".toList "d/../t/".toList .full).1 = .ok () ∧
    mixedTree.disk.Replicated (mixedTree.copyTree "d//.".toList "d/../t/".toList .full).2.disk [['d']] [['t']] ∧
    ∀ q, ¬ [['t']] <+: q →
      mixedTree.disk.SameAt (mixedTree.copyTree "d//.".toList "d/../t/".toList .full).2.disk q := by
  have h : TreeCopy.Copies ⟨"d//.".toList, "d/../t/".toList, .full⟩ mixedTree.disk [['d']] [['t']] :=
    .of_items (.of_items (by decide)) (by decide) (by decide)
      ⟨[], ['t'], true, by decide, by decide, rfl, by decide⟩ (by decide) (by decide) (by decide)
  have hordinary : ∀ rel node, mixedTree.disk.node? ([['d']] ++ rel) = some node → node.isOrdinary := by
    intro rel node hnode
    obtain ⟨id, hi, rfl⟩ := Disk.leaf_of_node? hnode
    rw [Disk.item?_eq_get? (by simp)] at hi
    have hlisted : ∀ entry ∈ mixedTree.disk.items, ∀ id, entry.2 = .leaf id → (mixedTree.disk.node id).isOrdinary := by
      simp [mixedTree, Session.disk, Disk.node, Table.get?, Node.isOrdinary]
    exact hlisted _ (Table.mem_of_get? hi) id rfl
  obtain ⟨hok, hreplica, hsame, -⟩ := copyTree_replicates mixedTree "d//.".toList "d/../t/".toList .full h hordinary
  exact ⟨h, hordinary, hok, hreplica, hsame⟩

def systemTree : Session where
  world.disk := {
    items := [([['p']], .folder 0o555), ([['p'], ['r']], .leaf 1), ([['p'], ['z']], .leaf 2)]
    nodes := [(1, .kernel 0o444 [7]), (2, .device .zero)]
    cwd := [] }

/-- A kernel record reports no length, so nothing of it is copied, and a device becomes an empty file. -/
theorem systemTree_emptied : TreeCopy.Copies ⟨['p'], ['t'], .full⟩ systemTree.disk [['p']] [['t']] ∧
    (systemTree.copyTree ['p'] ['t'] .full).1 = .ok () ∧
    systemTree.disk.isFileAt [['p'], ['r']] ∧ systemTree.disk.read "p/r".toList = .ok [7] ∧
    (systemTree.copyTree ['p'] ['t'] .full).2.disk.read "t/r".toList = .ok [] ∧
    systemTree.disk.isFileAt [['p'], ['z']] = false ∧
    (systemTree.copyTree ['p'] ['t'] .full).2.disk.isFileAt [['t'], ['z']] :=
  ⟨.of_items (.of_items (by decide)) (by decide) (by decide) ⟨[], ['t'], false, by decide, by decide, rfl, by decide⟩
      (by decide) (by decide) (by decide),
    by decide +kernel, by decide, by decide, by decide +kernel, by decide, by decide +kernel⟩

end Session

end SafeFiles
