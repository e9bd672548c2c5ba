import SafeFiles.Proofs.Tree.ApartLaws

/-!
# What a copy of a tree makes

The walk of a copy ends by itself: every folder that is entered makes the path of
the source longer, and a path that is too long is not listed. So the bound on the
depth is never reached (`within_deeper`). If the destination lies outside the source,
each entry at or below it is the image of an entry that was there before
(`copyTree_images`). If it lies inside, the walk meets its own images and goes on
until the paths are too long (`copyTree_nests`).
-/

namespace SafeFiles

namespace Disk

variable {d : Disk}

-- ---------------------------------------------------------------------------
-- Names of folders
-- ---------------------------------------------------------------------------

/-- Every folder has a name that means nothing but itself in a path. -/
def PlainFolders (d : Disk) : Prop := ∀ place n, d.isFolderAt (place ++ [n]) → n.IsPlain

theorem WellFormed.plainFolders (hd : d.WellFormed) : d.PlainFolders := by
  intro place n hf
  obtain ⟨mode, hm⟩ := isFolderAt_iff.mp hf
  exact (hd.names hm n (by simp)).1

theorem PlainFolders.setNode (h : d.PlainFolders) (id : NodeId) (node : Node) : (d.setNode id node).PlainFolders := by
  intro place n hf
  rw [isFolderAt, item?_setNode] at hf
  exact h place n hf

theorem PlainFolders.makeFolders (h : d.PlainFolders) (p : Path) : (d.makeFolders p).2.PlainFolders := by
  refine makeFoldersFrom_keeps (fun a _ _ d' d'' hd hm => ?_) h
  obtain ⟨folder, m, slash, hf, -, -, rfl⟩ := makeFolder_ok.mp hm
  intro place n hfolder
  rw [isFolderAt, item?_setItem _ _ _ _ (by simp)] at hfolder
  by_cases heq : folder ++ [m] = place ++ [n]
  · rw [← (List.cons.inj (List.append_inj' heq rfl).2).1]
    exact plain_of_folderOf hf
  · rw [if_neg heq] at hfolder
    exact hd place n hfolder

theorem PlainFolders.copyFile (h : d.PlainFolders) (src dst : Path) (durability : Durability) (turns : Turns) :
    (d.copyFile src dst durability turns).2.PlainFolders := by
  refine copyFile_keeps (fun place opened ho => ?_) h
  have hopened : opened.PlainFolders := by
    rcases openWrite_ok ho with ⟨folder, m, -, rfl, rfl⟩ | ⟨id, -, -, rfl | ⟨-, mode, bytes, -, rfl⟩⟩
    · intro place n hfolder
      rw [isFolderAt, item?_addNode _ _ _ (by simp)] at hfolder
      by_cases heq : folder ++ [m] = place ++ [n]
      · rw [if_pos heq] at hfolder
        cases hfolder
      · rw [if_neg heq] at hfolder
        exact h place n hfolder
    · exact h
    · exact h.setNode _ _
  refine ⟨hopened, fun bytes after ha => ?_⟩
  obtain ⟨id, -, rfl | ⟨mode, old, -, rfl⟩⟩ := append_ok ha
  · exact hopened
  · exact hopened.setNode _ _

end Disk

namespace TreeCopy

variable {c : TreeCopy} {rel : List Name} {kind : EntryKind} {s : Session} {depth : Nat}

-- ---------------------------------------------------------------------------
-- The depth of the walk
-- ---------------------------------------------------------------------------

theorem plainFolders_entry (h : s.disk.PlainFolders) (rel : List Name) (kind : EntryKind) :
    (c.entry rel kind s).2.disk.PlainFolders :=
  entry_keeps (fun _ => h.makeFolders _) (fun _ => h.copyFile _ _ _ _) h

theorem plainFolders_within (h : s.disk.PlainFolders) (depth : Nat) (rel : List Name) (kind : EntryKind) :
    (c.within depth rel kind s).2.disk.PlainFolders :=
  within_keeps (fun _ _ => True) (fun _ _ _ _ _ _ _ _ _ _ _ _ _ => trivial)
    (fun rel kind _ _ hs => plainFolders_entry hs rel kind) depth trivial h

theorem within_deeper (hsrc : rel ≠ [] → c.src ≠ []) (more : Nat) (hdepth : pathLimit ≤ rel.length + depth)
    (hpos : 0 < depth) (hrel : ∀ n ∈ rel, n.IsPlain) (hs : s.disk.PlainFolders) :
    c.within (depth + more) rel kind s = c.within depth rel kind s := by
  induction depth generalizing rel kind s with
  | zero => cases hpos
  | succ depth ih =>
    have hmade := plainFolders_entry (c := c) hs rel kind
    rw [Nat.succ_add, within_succ, within_succ]
    split
    · rfl
    rename_i after heq
    rw [heq] at hmade
    by_cases hfolder : kind = .folder ∨ rel = []
    · rw [if_pos hfolder, if_pos hfolder]
      split
      · rfl
      rename_i place names hopened
      obtain ⟨q, hstat, -⟩ := bind_eq_ok.mp hopened
      obtain ⟨-, hne, hshort⟩ := Disk.checkPath_ok (Disk.seek_ok.mp hstat).1
      have hsrc : c.src ≠ [] := by
        by_cases hnil : rel = []
        · simpa [sourcePath, hnil] using hne
        · exact hsrc hnil
      have hlength := Path.length_le_utf8Size_foldl_join c.src hrel
      have hsize := Text.utf8Size_pos hsrc
      rw [sourcePath] at hshort
      obtain ⟨less, rfl⟩ : ∃ less, depth = less + 1 := ⟨depth - 1, by omega⟩
      refine walkEach_congr (P := Disk.PlainFolders) (fun item hitem before hbefore => ?_) hmade
      refine ⟨?_, plainFolders_within hbefore _ _ _⟩
      obtain ⟨n, -, rfl⟩ := List.mem_map.mp hitem
      by_cases hk : after.disk.kindAt (place ++ [n]) = .folder
      · refine ih (fun _ => hsrc) (by simp; omega) (by omega) (fun k hk' => ?_) hbefore
        rcases List.mem_append.mp hk' with hk' | hk'
        · exact hrel k hk'
        · exact List.mem_singleton.mp hk' ▸ hmade place n (Disk.kindAt_eq_folder_iff.mp hk)
      · rw [Nat.succ_add, within_leaf c _ hk (by simp), within_leaf c _ hk (by simp)]
    · rw [if_neg hfolder, if_neg hfolder]

end TreeCopy

-- ---------------------------------------------------------------------------
-- Images
-- ---------------------------------------------------------------------------

namespace Disk

variable {d d' d'' : Disk} {a root b q : Place} {rel : List Name} {p dst : Path} {leafId : NodeId} {bytes : Bytes}

/-- All that is new at `b` or below is the image of what was at `a`, and no two new entries are one file. -/
structure Imaging (d : Disk) (a root b : Place) (d' : Disk) : Prop where
  grown : Grown root d d'
  images : ∀ rel, (d'.item? (b ++ rel)).isSome → d.Mirrored d' (a ++ rel) (b ++ rel)
  single : ∀ {q q' id}, d.item? q = none → d'.item? q = some (.leaf id) → d'.item? q' = some (.leaf id) → q' = q

theorem Apart.imaging (h : d.Apart dst a root b) : d.Imaging a root b d where
  grown := .refl h.tree root
  images rel hi := by simp [h.free_below rel] at hi
  single hq hi _ := by simp [hq] at hi

theorem Imaging.makeFolders (h : d.Imaging a root b d') (hapart : d.Apart dst a root b)
    (ha : d.isFolderAt (a ++ rel)) (hg : Grown root d d'') (hw : d'.Within d'')
    (hmade : ∀ q, d'.item? q = none → d''.item? q = none ∨
      d''.item? q = some (.folder newFolderMode) ∧ q <+: b ++ rel) : d.Imaging a root b d'' where
  grown := hg
  images r hi := by
    cases hold : d'.item? (b ++ r) with
    | some item => exact (h.images r (by simp [hold])).sameAt (hw.sameAt hold)
    | none =>
      rcases hmade _ hold with hnone | ⟨hfolder, hp⟩
      · simp [hnone] at hi
      obtain ⟨below, rfl⟩ := (List.prefix_append_right_inj b).mp hp
      rw [← List.append_assoc] at ha
      obtain ⟨mode, hm⟩ := isFolderAt_iff.mp (hapart.tree.isFolderAt_of_append ha)
      simpa [Mirrored, hm] using hfolder
  single {q q' id} hq hi hi' := by
    have hbefore {p : Place} (hp : d''.item? p = some (.leaf id)) : d'.item? p = some (.leaf id) := by
      cases hold : d'.item? p with
      | some item => rw [← hp, hw.item hold]
      | none =>
        rcases hmade p hold with hnone | ⟨hfolder, -⟩
        · simp [hnone] at hp
        · simp [hfolder] at hp
    exact h.single hq (hbefore hi) (hbefore hi')

theorem Imaging.fill (h : d.Imaging a root b d') (hapart : d.Apart dst a root b)
    (hi : d.item? (a ++ rel) = some (.leaf leafId)) (hlink : (d.node leafId).isLink = false)
    (hg : Grown root d d'') (hopen : d'.Receives p (b ++ rel))
    (hf : d'.Filled (b ++ rel) (d.node leafId).copiedBytes d'') : d.Imaging a root b d'' where
  grown := hg
  images r hr := by
    by_cases heq : r = rel
    · subst heq
      have hmode : d'.modeOver (b ++ r) = newFileMode := by
        unfold modeOver
        split
        · rename_i hsome
          have hold := h.images r hsome
          simp only [Mirrored, hi, hlink, Bool.false_eq_true, if_false] at hold
          obtain ⟨_, hleaf, hnode⟩ := leaf_of_node? hold
          simp [modeAt, hleaf, hnode, Node.mode]
        · rfl
      simp [Mirrored, hi, hlink, hf.content, hmode]
    · have hne : b ++ r ≠ b ++ rel := by simpa using heq
      have hitem := hf.items _ (.inl hne)
      rw [hitem] at hr
      refine (h.images r hr).sameAt ⟨hitem, hf.nodes _ fun hsame => ?_⟩
      obtain ⟨id, hleaf⟩ := hopen.leaf (hsame ▸ hr)
      exact hne (h.single (hapart.free_below rel) hleaf (hsame.trans hleaf))
  single {q q' id} hq hleaf hleaf' := by
    have htarget {p : Place} (hp : d''.item? p = d''.item? (b ++ rel)) : p = b ++ rel := by
      by_contra hne
      have hsame : d'.item? p = d'.item? (b ++ rel) := not_not.mp fun hother => hf.apart p hother hp
      obtain ⟨_, hnew, -⟩ := leaf_of_node? hf.content
      have hold := ((hf.items p (.inl hne)).symm.trans hp).trans hnew
      exact hne (h.single (hapart.free_below rel) (hsame ▸ hold) hold)
    by_cases hqt : q = b ++ rel
    · exact (htarget (hleaf'.trans (hqt ▸ hleaf.symm))).trans hqt.symm
    · have hqt' : q' ≠ b ++ rel := fun heq => hqt (htarget (hleaf.trans (heq ▸ hleaf'.symm)))
      exact h.single hq ((hf.items q (.inl hqt)).symm.trans hleaf) ((hf.items q' (.inl hqt')).symm.trans hleaf')

theorem Apart.of_stat {home : Place} {before after : List Step} {n : Name}
    (hbrink : d.Brink (d.start dst) before n home) (hbare : dst.bare = before ++ .down n :: after)
    (hup : .up ∉ after) (hfree : d.item? (home ++ [n]) = none)
    (ha : d.isFolderAt a) (hg : Grown (home ++ [n]) d d') (hstat : d'.stat dst = .ok b) (hout : ¬ a <+: b) :
    d.Apart dst a (home ++ [n]) b := by
  obtain ⟨-, hr, -⟩ := seek_ok.mp hstat
  have hr := hr.bare
  rw [Within.start hg.cwd, hbare] at hr
  have hb := hbrink.lands hfree hg hr hup
  exact ⟨ha, hfree, fun hp => hout (hp.trans (hb ▸ List.prefix_append _ _)),
    home, before, n, after, rfl, hb, hbrink, hbare, hup⟩

end Disk

namespace TreeCopy

variable {c : TreeCopy} {d d' : Disk} {a root b : Place} {rel : List Name} {kind : EntryKind} {s : Session}

theorem makeFolders_imaging (h : d.Apart c.dst a root b) (hvisit : d.Visits a rel .folder)
    (hd : d.Imaging a root b d') : d.Imaging a root b (d'.makeFolders (c.targetPath rel)).2 := by
  obtain ⟨hg, hmade⟩ := makeFolders_apart h hd.grown (hvisit.plain h.tree)
  exact hd.makeFolders h (hvisit.folder h.folder (.inl rfl)) hg (Disk.within_makeFolders _ _) hmade

theorem copyFile_imaging (h : d.Apart c.dst a root b) (hsrc : d.stat c.src = .ok a) (hvisit : d.Visits a rel .other)
    (hd : d.Imaging a root b d') (durability : Durability) (turns : Turns) :
    d.Imaging a root b (d'.copyFile (c.sourcePath rel) (c.targetPath rel) durability turns).2 := by
  obtain ⟨hne, id, hleaf, hlink⟩ := hvisit.leaf
  have hrel := hvisit.plain h.tree
  by_cases hdst : ∃ target, d'.Receives (c.targetPath rel) target
  · obtain ⟨target, hdst⟩ := hdst
    obtain rfl := eq_of_receives h hd.grown hrel hne hdst
    cases hstat : d'.stat (c.sourcePath rel) with
    | error f =>
      have hsize : d'.size (c.sourcePath rel) = .error f := by simp [Disk.size, hstat, Except.map]
      simpa only [Disk.copyFile, hsize] using hd
    | ok source =>
      obtain rfl := h.eq_source hd.grown hsrc hvisit.1 (hvisit.not_link h.folder (.inl (by simp))) hstat
      have hold := hd.grown.within.item hleaf
      -- The image is new, so it is another file than the entry.
      have hother : d'.item? (a ++ rel) ≠ d'.item? (b ++ rel) := fun heq => by
        have hsame := hd.single (h.free_below rel) (heq ▸ hold) hold
        exact h.not_below rel (hsame ▸ h.root_prefix.trans (List.prefix_append _ _))
      obtain ⟨-, hfilled⟩ := hdst.copyFile hstat (hd.grown.within.node? (Disk.node?_of_leaf hleaf)) hlink hother
        durability turns
      exact hd.fill h hleaf hlink (copyFile_apart h hd.grown hrel hne _ _ _) hdst hfilled
  · rw [Disk.copyFile_idle (not_exists.mp hdst)]
    exact hd

/-- A copy to a place apart comes to entries of the source only, and makes their images. -/
theorem run_imaging (h : s.disk.Apart c.dst a root b) (hsrc : s.disk.stat c.src = .ok a) :
    s.disk.Imaging a root b (c.run s).2.disk ∧ ∃ made, c.Made made s.disk (c.run s).2.disk ∧
      (made.map Prod.fst).Nodup ∧ ∀ v ∈ made, s.disk.Visits a v.1 v.2 := by
  rcases c.run_walks s with hsame | ⟨-, -, kind, hkind, hwalk⟩
  · rw [hsame]
    exact ⟨h.imaging, [], .nil _, List.nodup_nil, by simp⟩
  · obtain ⟨mode, hm⟩ := Disk.isFolderAt_iff.mp h.folder
    have hvisit : s.disk.Visits a [] kind := ⟨by simp [hm], by simpa using hkind⟩
    rw [hwalk]
    exact within_apart h hsrc (fun _ hd => hd.grown) (fun rel _ hvisit d hd => makeFolders_imaging h hvisit hd)
      (fun rel _ hvisit d hd => copyFile_imaging h hsrc hvisit hd c.durability {}) pathLimit hvisit h.imaging

/-- A copy that makes something has a destination that was free; if it leads out of the source now, it stands apart. -/
theorem run_apart (hd : s.disk.WellFormed) (hsrc : s.disk.stat c.src = .ok a) (hdst : s.disk.Forthright c.dst)
    (hstat : (c.run s).2.disk.stat c.dst = .ok b) (hout : ¬ a <+: b) :
    (c.run s).2.disk = s.disk ∨ ∃ root, s.disk.Apart c.dst a root b := by
  rcases c.run_walks s with hsame | ⟨ha, hthere, -⟩
  · exact .inl hsame
  have ha : s.disk.isFolderAt a := by simpa [Disk.isFolder, hsrc] using ha
  have hmissing (place : Place) : s.disk.stat c.dst ≠ .ok place := fun h => by
    simp [Disk.there, h, Except.isOk, Except.toBool] at hthere
  obtain ⟨hc, -⟩ := Disk.seek_ok.mp hstat
  obtain ⟨before, rest, home, hbare, hup, hr, hf⟩ := hdst
  rcases Disk.exists_brink hd hr hf hup with ⟨place, hr, hf⟩ | ⟨more, n, after, home, rfl, hbrink⟩
  · simp [Disk.there_of_route hc (hbare ▸ hr) hf] at hthere
  rw [← List.append_assoc] at hbare
  have hup : .up ∉ after := fun h => hup (by simp [h])
  have hg := run_grown hbrink hbare hup
  rcases hbrink.free_or_leaf with hfree | ⟨id, hi⟩
  · exact .inr ⟨_, .of_stat hbrink hbare hup hfree ha hg hstat hout⟩
  · exact absurd (Disk.Within.seek (hg.within_of_leaf hi) hg.cwd.symm hstat) (hmissing b)

end TreeCopy

-- ---------------------------------------------------------------------------
-- The whole copy
-- ---------------------------------------------------------------------------

namespace Session

/-- The walk ends before its depth does, and makes nothing twice. If the destination lies outside the source,
and up to its last `..` led to a folder, all that is new in it is the image of what was in the source. -/
theorem copyTree_images (s : Session) (src dst : Path) (durability : Durability) (hd : s.disk.WellFormed) :
    (∀ more kind, TreeCopy.within ⟨src, dst, durability⟩ (pathLimit + more) [] kind s =
      TreeCopy.within ⟨src, dst, durability⟩ pathLimit [] kind s) ∧
    ∃ made, TreeCopy.Made ⟨src, dst, durability⟩ made s.disk (s.copyTree src dst durability).2.disk ∧
      (made.map Prod.fst).Nodup ∧
      ∀ a b, s.disk.stat src = .ok a → (s.copyTree src dst durability).2.disk.stat dst = .ok b →
        s.disk.Forthright dst → ¬ a <+: b →
          (∀ v ∈ made, (s.disk.item? (a ++ v.1)).isSome) ∧
          ∀ rel, s.disk.item? (b ++ rel) = none →
            ((s.copyTree src dst durability).2.disk.item? (b ++ rel)).isSome →
              s.disk.Mirrored (s.copyTree src dst durability).2.disk (a ++ rel) (b ++ rel) := by
  refine ⟨fun more kind => ?_, ?_⟩
  · exact TreeCopy.within_deeper (by simp) more (by simp) (by decide) (by simp) hd.plainFolders
  by_cases hapart : ∃ a root b, s.disk.stat src = .ok a ∧
      (s.copyTree src dst durability).2.disk.stat dst = .ok b ∧ s.disk.Apart dst a root b
  · obtain ⟨a, root, b, hsrc, hdst, hapart⟩ := hapart
    obtain ⟨himaging, made, hmade, hdistinct, hvisits⟩ := TreeCopy.run_imaging (c := ⟨src, dst, durability⟩) hapart hsrc
    refine ⟨made, hmade, hdistinct, fun a' b' hsrc' hdst' _ _ => ?_⟩
    obtain rfl := Except.ok.inj (hsrc.symm.trans hsrc')
    obtain rfl := Except.ok.inj (hdst.symm.trans hdst')
    exact ⟨fun v hv => (hvisits v hv).1, fun rel _ hnew => himaging.images rel hnew⟩
  · have hidle {a b : Place} (hsrc : s.disk.stat src = .ok a)
        (hdst : (s.copyTree src dst durability).2.disk.stat dst = .ok b) (hforth : s.disk.Forthright dst)
        (hout : ¬ a <+: b) : (s.copyTree src dst durability).2.disk = s.disk :=
      (TreeCopy.run_apart (c := ⟨src, dst, durability⟩) hd hsrc hforth hdst hout).resolve_right
        fun ⟨root, h⟩ => hapart ⟨a, root, b, hsrc, hdst, h⟩
    by_cases hsame : (s.copyTree src dst durability).2.disk = s.disk
    · refine ⟨[], hsame ▸ .nil _, List.nodup_nil, fun a b _ _ _ _ => ⟨by simp, fun rel hnone hnew => ?_⟩⟩
      simp [hsame, hnone] at hnew
    · obtain ⟨made, hmade, hdistinct⟩ := TreeCopy.run_made ⟨src, dst, durability⟩ s
      refine ⟨made, hmade, hdistinct, fun a b hsrc hdst hforth hout => ?_⟩
      exact absurd (hidle hsrc hdst hforth hout) hsame

theorem twoFolders_images : twoFolders.disk.WellFormed ∧ twoFolders.disk.stat "src".toList = .ok ["src".toList] ∧
    (twoFolders.copyTree "src".toList "old/../m/n".toList .full).2.disk.stat "old/../m/n".toList =
      .ok [['m'], ['n']] ∧
    twoFolders.disk.Forthright "old/../m/n".toList ∧ ¬ ["src".toList] <+: [['m'], ['n']] ∧
    twoFolders.disk.Mirrored (twoFolders.copyTree "src".toList "old/../m/n".toList .full).2.disk
      ["src".toList, ['f']] [['m'], ['n'], ['f']] := by
  have hd : twoFolders.disk.WellFormed := .of_items (by decide)
  have hsrc : twoFolders.disk.stat "src".toList = .ok ["src".toList] := by decide
  have hstat : (twoFolders.copyTree "src".toList "old/../m/n".toList .full).2.disk.stat "old/../m/n".toList =
      .ok [['m'], ['n']] := by decide +kernel
  have hdst : twoFolders.disk.Forthright "old/../m/n".toList :=
    ⟨[.down "old".toList, .up], [.down ['m'], .down ['n']], [], by decide, by decide,
      Disk.walk_found.mp (by decide), by decide⟩
  have hout : ¬ ["src".toList] <+: [['m'], ['n']] := by decide
  obtain ⟨-, made, -, -, himages⟩ := copyTree_images twoFolders "src".toList "old/../m/n".toList .full hd
  exact ⟨hd, hsrc, hstat, hdst, hout, (himages _ _ hsrc hstat hdst hout).2 [['f']] (by decide) (by decide +kernel)⟩

def nestedFolders : Session where
  world := { disk := {
    items := [([['d']], .folder 0o755), ([['d'], ['s']], .folder 0o755)]
    nodes := []
    cwd := [] } }

/-- Copied into itself, the outer folder is copied with its copy. The slashes only make the path long,
so the walk ends soon. -/
theorem copyTree_nests : nestedFolders.disk.WellFormed ∧
    nestedFolders.disk.stat ('d' :: List.replicate 4092 '/') = .ok [['d']] ∧
    nestedFolders.disk.item? [['d'], ['s'], ['t']] = none ∧
    (nestedFolders.copyTree ('d' :: List.replicate 4092 '/') "d/s/t".toList .full).2.disk.item?
      ([['d'], ['s'], ['t']] ++ [['s'], ['t']]) = some (.folder newFolderMode) := by
  have hd : nestedFolders.disk.WellFormed := .of_items (by decide)
  exact ⟨hd, by decide +kernel, by decide, by decide +kernel⟩

end Session

end SafeFiles
