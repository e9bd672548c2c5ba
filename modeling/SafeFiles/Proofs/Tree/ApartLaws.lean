import SafeFiles.Proofs.Tree.ReplicaLaws

/-!
# Copies to a place apart

A destination stands apart from a folder if the missing part of its way begins
outside the folder (`Apart`). Then nothing that is made for it is in the folder, so
a walk over the folder comes only to entries that were there before (`Visits`), and
what is made for one of them stands at its image or on the way there.
-/

namespace SafeFiles

namespace Disk

variable {d d' d₁ d₂ : Disk} {a root b place q target : Place} {rel : List Name} {n : Name} {kind : EntryKind}
  {src dst : Path}

/-- The way of `dst` leaves the tree at the free place `root`, outside the folder at `a`, and goes down from
there to `b`. -/
structure Apart (d : Disk) (dst : Path) (a root b : Place) : Prop where
  folder : d.isFolderAt a
  free : d.item? root = none
  outside : ¬ a <+: root
  way : ∃ home before n after, root = home ++ [n] ∧ b = root ++ Step.names after ∧
    d.Brink (d.start dst) before n home ∧ dst.bare = before ++ .down n :: after ∧ .up ∉ after

/-- A walk over the folder at `a` comes by `rel` to an entry of this kind. At the root it may come by a link. -/
def Visits (d : Disk) (a : Place) (rel : List Name) (kind : EntryKind) : Prop :=
  (d.item? (a ++ rel)).isSome ∧ if rel = [] then kind ≠ .other else kind = d.kindAt (a ++ rel)

-- ---------------------------------------------------------------------------
-- What is visited
-- ---------------------------------------------------------------------------

theorem Visits.plain (h : d.Visits a rel kind) (hd : d.WellFormed) : ∀ n ∈ rel, n.IsPlain := by
  obtain ⟨item, hi⟩ := Option.isSome_iff_exists.mp h.1
  exact fun n hn => (hd.names hi n (by simp [hn])).1

theorem Visits.folder (h : d.Visits a rel kind) (ha : d.isFolderAt a) (hkind : kind = .folder ∨ rel = []) :
    d.isFolderAt (a ++ rel) := by
  obtain ⟨-, hvisit⟩ := h
  split at hvisit
  · rename_i hnil
    rwa [hnil, List.append_nil]
  · rename_i hne
    exact kindAt_eq_folder_iff.mp (hvisit.symm.trans (hkind.resolve_right hne))

theorem Visits.leaf (h : d.Visits a rel .other) :
    rel ≠ [] ∧ ∃ id, d.item? (a ++ rel) = some (.leaf id) ∧ (d.node id).isLink = false := by
  obtain ⟨hi, hvisit⟩ := h
  split at hvisit
  · exact absurd rfl hvisit
  rename_i hne
  refine ⟨hne, ?_⟩
  obtain ⟨item, hi⟩ := Option.isSome_iff_exists.mp hi
  cases item with
  | folder mode =>
    rw [kindAt_eq_folder_iff.mpr (isFolderAt_of_item hi)] at hvisit
    cases hvisit
  | leaf id =>
    refine ⟨id, hi, ?_⟩
    cases hlink : (d.node id).isLink with
    | false => rfl
    | true => simp [kindAt, isFolderAt_of_leaf hi, isLinkAt, node?_of_leaf hi, hlink] at hvisit

theorem Visits.not_link (h : d.Visits a rel kind) (ha : d.isFolderAt a) (hkind : kind ≠ .link ∨ rel = []) :
    d.isLinkAt (a ++ rel) = false := by
  cases hk : kind with
  | folder =>
    obtain ⟨mode, hm⟩ := isFolderAt_iff.mp (h.folder ha (.inl hk))
    simp [isLinkAt, node?, hm]
  | link =>
    obtain ⟨mode, hm⟩ := isFolderAt_iff.mp (h.folder ha (.inr (hkind.resolve_left (not_not.mpr hk))))
    simp [isLinkAt, node?, hm]
  | other =>
    obtain ⟨-, id, hi, hlink⟩ := (hk ▸ h).leaf
    simpa [isLinkAt, node?_of_leaf hi] using hlink

namespace Apart

theorem tree (h : d.Apart dst a root b) : d.WellFormed := by
  obtain ⟨home, before, n, after, -, -, hbrink, -⟩ := h.way
  exact hbrink.tree

theorem not_below (h : d.Apart dst a root b) (rel : List Name) : ¬ root <+: a ++ rel := by
  intro hp
  rcases List.prefix_or_prefix_of_prefix hp (List.prefix_append a rel) with hroot | ha
  · obtain ⟨mode, hm⟩ := isFolderAt_iff.mp h.folder
    simp [h.tree.item?_at_or_below h.free hroot] at hm
  · exact h.outside ha

theorem root_prefix (h : d.Apart dst a root b) : root <+: b := by
  obtain ⟨home, before, n, after, -, rfl, -⟩ := h.way
  exact List.prefix_append _ _

theorem free_below (h : d.Apart dst a root b) (rel : List Name) : d.item? (b ++ rel) = none :=
  h.tree.item?_at_or_below h.free (h.root_prefix.trans (List.prefix_append _ _))

theorem same (h : d.Apart dst a root b) (hg : Grown root d d') (rel : List Name) : d.SameAt d' (a ++ rel) :=
  hg.sameAt (h.not_below rel)

theorem stat_source (h : d.Apart dst a root b) (hg : Grown root d d') (hsrc : d.stat src = .ok a)
    (hi : (d.item? (a ++ rel)).isSome) (hlink : d.isLinkAt (a ++ rel) = false)
    (hlen : Text.utf8Size (rel.foldl Path.join src) < pathLimit) :
    d'.stat (rel.foldl Path.join src) = .ok (a ++ rel) := by
  obtain ⟨hc, hr, -⟩ := seek_ok.mp hsrc
  exact Within.seek hg.within hg.cwd (stat_foldl_join h.tree hc hr h.folder hi hlink hlen)

theorem eq_source (h : d.Apart dst a root b) (hg : Grown root d d') (hsrc : d.stat src = .ok a)
    (hi : (d.item? (a ++ rel)).isSome) (hlink : d.isLinkAt (a ++ rel) = false)
    (hstat : d'.stat (rel.foldl Path.join src) = .ok place) : place = a ++ rel := by
  have hlen := (checkPath_ok (seek_ok.mp hstat).1).2.2
  exact Except.ok.inj (hstat.symm.trans (h.stat_source hg hsrc hi hlink hlen))

theorem visits_child (h : d.Apart dst a root b) (hg : Grown root d d') (hn : n ∈ d'.names (a ++ rel)) :
    d.Visits a (rel ++ [n]) (d'.kindAt (a ++ rel ++ [n])) := by
  have hsame := h.same hg (rel ++ [n])
  rw [mem_names_iff, List.append_assoc, hsame.1] at hn
  rw [List.append_assoc]
  exact ⟨hn, by simp [hsame.kindAt]⟩

/-- A folder that is visited is listed with the entries that it had, and these are visited next. -/
theorem visits_next (h : d.Apart dst a root b) (hsrc : d.stat src = .ok a) (hvisit : d.Visits a rel kind)
    (hkind : kind = .folder ∨ rel = []) (hg₁ : Grown root d d₁) (hg₂ : Grown root d d₂) {names : List Name}
    (hlist : d₁.list (rel.foldl Path.join src) = .ok (place, names)) :
    place = a ++ rel ∧ ∀ n ∈ d₂.names place, d.Visits a (rel ++ [n]) (d₂.kindAt (place ++ [n])) := by
  have hlink : d.isLinkAt (a ++ rel) = false := by
    obtain ⟨mode, hm⟩ := isFolderAt_iff.mp (hvisit.folder h.folder hkind)
    simp [isLinkAt, node?, hm]
  obtain ⟨q, hstat, hlist⟩ := bind_eq_ok.mp hlist
  obtain rfl := h.eq_source hg₁ hsrc hvisit.1 hlink hstat
  split at hlist
  · cases hlist
    exact ⟨rfl, fun n hn => h.visits_child hg₂ hn⟩
  · cases hlist

end Apart

end Disk

namespace TreeCopy

variable {c : TreeCopy} {d d' : Disk} {a root b target : Place} {rel : List Name} {kind : EntryKind} {s : Session}

theorem bare_targetPath (hrel : ∀ n ∈ rel, n.IsPlain) : (c.targetPath rel).bare = c.dst.bare ++ rel.map .down := by
  rw [targetPath_eq hrel, Path.bare_foldl_join _ hrel]

theorem start_targetPath (d : Disk) (hrel : ∀ n ∈ rel, n.IsPlain) : d.start (c.targetPath rel) = d.start c.dst := by
  rw [targetPath_eq hrel, Disk.start_foldl_join _ _ hrel]

theorem makeFolders_apart (h : d.Apart c.dst a root b) (hg : Disk.Grown root d d') (hrel : ∀ n ∈ rel, n.IsPlain) :
    Disk.Grown root d (d'.makeFolders (c.targetPath rel)).2 ∧ ∀ q, d'.item? q = none →
      (d'.makeFolders (c.targetPath rel)).2.item? q = none ∨
        (d'.makeFolders (c.targetPath rel)).2.item? q = some (.folder newFolderMode) ∧ q <+: b ++ rel := by
  obtain ⟨home, before, n, after, rfl, rfl, hbrink, hbare, hup⟩ := h.way
  have hp : (c.targetPath rel).bare <+: before ++ .down n :: (after ++ rel.map .down) := by
    rw [bare_targetPath hrel, hbare]
    simp
  obtain ⟨hgrown, hways⟩ := hbrink.makeFolders hg (start_targetPath d hrel) hp (by simpa using hup)
  rw [Step.names_append, Step.names_map_down, ← List.append_assoc] at hways
  exact ⟨hgrown, hways⟩

theorem eq_of_receives (h : d.Apart c.dst a root b) (hg : Disk.Grown root d d') (hrel : ∀ n ∈ rel, n.IsPlain)
    (hne : rel ≠ []) (hopen : d'.Receives (c.targetPath rel) target) : target = b ++ rel := by
  obtain ⟨home, before, n, after, rfl, rfl, hbrink, hbare, hup⟩ := h.way
  have hp : (c.targetPath rel).bare = before ++ .down n :: (after ++ rel.map .down) := by
    rw [bare_targetPath hrel, hbare]
    simp
  obtain ⟨hfree, hfound⟩ := hbrink.locate hg (start_targetPath d hrel) hp (by simp [hne]) (by simpa using hup)
  rw [Step.names_append, Step.names_map_down, ← List.append_assoc] at hfree hfound
  cases hopen with
  | free hl => exact (hfree _ _ hl).2.1
  | file hl _ => exact (hfound _ hl).2

theorem copyFile_apart (h : d.Apart c.dst a root b) (hg : Disk.Grown root d d') (hrel : ∀ n ∈ rel, n.IsPlain)
    (hne : rel ≠ []) (src : Path) (durability : Durability) (turns : Turns) :
    Disk.Grown root d (d'.copyFile src (c.targetPath rel) durability turns).2 := by
  obtain ⟨home, before, n, after, rfl, -, hbrink, hbare, hup⟩ := h.way
  have hp : (c.targetPath rel).bare = before ++ .down n :: (after ++ rel.map .down) := by
    rw [bare_targetPath hrel, hbare]
    simp
  refine Disk.copyFile_keeps (fun place opened ho => ?_) hg
  obtain ⟨hg', hnew⟩ := hbrink.openWrite hg (start_targetPath d hrel) hp (by simp [hne]) (by simpa using hup) ho
  exact ⟨hg', fun bytes after ha => hg'.append hnew ha⟩

/-- The walk comes to entries of the source from `rel` down, each of them once, and keeps what is kept entry
by entry. -/
theorem within_apart {P : Disk → Prop} (h : d.Apart c.dst a root b) (hsrc : d.stat c.src = .ok a)
    (hgrown : ∀ d', P d' → Disk.Grown root d d')
    (hfolder : ∀ below, rel <+: below → d.Visits a below .folder → ∀ d', P d' →
      P (d'.makeFolders (c.targetPath below)).2)
    (hfile : ∀ below, rel <+: below → d.Visits a below .other → ∀ d', P d' →
      P (d'.copyFile (c.sourcePath below) (c.targetPath below) c.durability).2)
    (depth : Nat) (hvisit : d.Visits a rel kind) (hs : P s.disk) :
    P (c.within depth rel kind s).2.disk ∧ ∃ made, c.Made made s.disk (c.within depth rel kind s).2.disk ∧
      (made.map Prod.fst).Nodup ∧ ∀ v ∈ made, d.Visits a v.1 v.2 := by
  have hentry (below : List Name) (kind : EntryKind) (s : Session) (hvisit : d.Visits a below kind ∧ rel <+: below)
      (hs : P s.disk) : P (c.entry below kind s).2.disk :=
    entry_keeps (fun hk => hfolder below hvisit.2 (hk ▸ hvisit.1) _ hs)
      (fun hk => hfile below hvisit.2 (hk ▸ hvisit.1) _ hs) hs
  obtain ⟨made, hmade, hdistinct, hvisits⟩ := within_made (P := P)
    (fun below kind => d.Visits a below kind ∧ rel <+: below)
    (fun below kind d₁ d₂ place names hvisit hkind h₁ h₂ hlist n hn =>
      ⟨(h.visits_next hsrc hvisit.1 hkind (hgrown d₁ h₁) (hgrown d₂ h₂) hlist).2 n hn,
        hvisit.2.trans (List.prefix_append _ _)⟩) hentry depth ⟨hvisit, List.prefix_rfl⟩ hs
  refine ⟨hmade.keeps (fun v hv s hs => hentry v.1 v.2 s (hvisits v hv).1 hs) hs, made, hmade, hdistinct, ?_⟩
  exact fun v hv => (hvisits v hv).1.1

theorem entry_apart (h : d.Apart c.dst a root b) (hvisit : d.Visits a rel kind) (hg : Disk.Grown root d s.disk) :
    Disk.Grown root d (c.entry rel kind s).2.disk := by
  have hrel := hvisit.plain h.tree
  refine entry_keeps (fun _ => (makeFolders_apart h hg hrel).1) (fun hother => ?_) hg
  subst hother
  exact copyFile_apart h hg hrel hvisit.leaf.1 _ _ _

theorem within_grown (h : d.Apart c.dst a root b) (hsrc : d.stat c.src = .ok a) (depth : Nat)
    (hvisit : d.Visits a rel kind) (hg : Disk.Grown root d s.disk) :
    Disk.Grown root d (c.within depth rel kind s).2.disk :=
  (within_apart h hsrc (fun _ hg => hg)
    (fun _ _ hvisit _ hg => (makeFolders_apart h hg (hvisit.plain h.tree)).1)
    (fun _ _ hvisit _ hg => copyFile_apart h hg (hvisit.plain h.tree) hvisit.leaf.1 _ _ _) depth hvisit hg).1

end TreeCopy

end SafeFiles
