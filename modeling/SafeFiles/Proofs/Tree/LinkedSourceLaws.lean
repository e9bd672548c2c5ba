import SafeFiles.Proofs.Disk.FolderLaws
import SafeFiles.Proofs.Tree.ApartLaws

/-!
# Copies through a link

A copy whose source is a link walks the folder behind the link, but counts the root as a
link and makes nothing for it. If the first entry that is copied is a folder, the folders
made for it bring the destination into being, and from then on the walk goes as it does for
the folder's own path (`within_alike`). A file comes too early to be put anywhere, and
if nothing is copied there is no destination at all. So the first entry tells whether
both copies come to the same (`copyTree_through_link`).
-/

namespace SafeFiles

/-- Two runs that both succeed or both fail, and leave one disk. -/
structure Alike (x y : Except Report Unit × Session) : Prop where
  success : x.1.isOk = y.1.isOk
  disk : x.2.disk = y.2.disk

namespace Alike

variable {x y z : Except Report Unit × Session}

theorem symm (h : Alike x y) : Alike y x := ⟨h.success.symm, h.disk.symm⟩

theorem trans (h : Alike x y) (h' : Alike y z) : Alike x z := ⟨h.success.trans h'.success, h.disk.trans h'.disk⟩

end Alike

namespace Disk

variable {d d' : Disk} {src real dst p q : Path} {a root b : Place} {rel : List Name} {kind : EntryKind} {n : Name}

theorem copyFile_congr (h : d.stat p = d.stat q) (dst : Path) (durability : Durability) (turns : Turns) :
    d.copyFile p dst durability turns = d.copyFile q dst durability turns := by
  unfold copyFile size copyPrefix
  rw [h]

-- ---------------------------------------------------------------------------
-- The first entry
-- ---------------------------------------------------------------------------

def leading? (d : Disk) (a : Place) : Option (Name × EntryKind) :=
  (d.entries a).find? fun entry => entry.2 ≠ .link

theorem leading?_eq_none : d.leading? a = none ↔ ∀ entry ∈ d.entries a, entry.2 = .link := by
  simp [leading?, List.find?_eq_none]

theorem leading?_eq_some : d.leading? a = some (n, kind) ↔ kind ≠ .link ∧ ∃ links later,
    d.entries a = links ++ (n, kind) :: later ∧ ∀ entry ∈ links, entry.2 = .link := by
  simp [leading?, List.find?_eq_some_iff_append]

-- ---------------------------------------------------------------------------
-- The destination
-- ---------------------------------------------------------------------------

namespace Apart

theorem not_there (h : d.Apart dst a root b) : d.there dst = false := by
  cases hstat : d.stat dst with
  | error f => simp [there, hstat, Except.isOk, Except.toBool]
  | ok place =>
    obtain ⟨-, hr, hi⟩ := seek_ok.mp hstat
    obtain ⟨home, before, n, after, rfl, rfl, hbrink, hbare, hup⟩ := h.way
    have hr := hr.bare
    rw [hbare] at hr
    obtain rfl := hbrink.lands h.free (.refl h.tree _) hr hup
    rw [h.tree.item?_at_or_below h.free (List.prefix_append _ _)] at hi
    cases hi

theorem visits_entry (h : d.Apart dst a root b) (hg : Grown root d d') {entry : Name × EntryKind}
    (hentry : entry ∈ d'.entries (a ++ rel)) : d.Visits a (rel ++ [entry.1]) entry.2 := by
  obtain ⟨n, hn, rfl⟩ := List.mem_map.mp hentry
  exact h.visits_child hg hn

theorem visits_root (h : d.Apart dst a root b) {entry : Name × EntryKind} (hentry : entry ∈ d.entries a) :
    d.Visits a [entry.1] entry.2 := by
  rw [← List.append_nil a] at hentry
  exact h.visits_entry (.refl h.tree root) hentry

theorem outside_below (h : d.Apart dst a root b) {place : Place} (hp : root <+: place) : ¬ a <+: place := by
  intro ha
  rcases List.prefix_or_prefix_of_prefix ha hp with hroot | hbelow
  · exact h.outside hroot
  · exact h.not_below [] (by rwa [List.append_nil])

theorem makeFolders_source (h : d.Apart dst a root b) :
    Grown root d (d.makeFolders dst).2 ∧ (d.makeFolders dst).2.entries a = d.entries a := by
  obtain ⟨hg, hnames⟩ : Grown root d (d.makeFolders dst).2 ∧ (d.makeFolders dst).2.names a = d.names a := by
    obtain ⟨home, before, n, after, hroot, -, hbrink, hbare, hup⟩ := h.way
    refine makeFoldersFrom_keeps (P := fun made => Grown root d made ∧ made.names a = d.names a)
      (fun p hp hne made made' hmade hok => ?_) ⟨.refl h.tree root, rfl⟩
    obtain ⟨hg, hnames⟩ := hmade
    obtain ⟨habs, hbegins⟩ := Path.of_mem_ancestors hp hne
    subst hroot
    obtain ⟨later, -, hfree, rfl, hnew⟩ :=
      hbrink.makeFolder hg (start_eq rfl habs) (hbare ▸ hbegins) hup hok
    refine ⟨hg.trans hnew (List.prefix_append _ _), ?_⟩
    rw [names_setItem hfree (h.outside_below (List.prefix_append _ _)), hnames]
  refine ⟨hg, ?_⟩
  rw [entries, entries, hnames]
  exact List.map_congr_left fun n _ => by rw [(h.same hg [n]).kindAt]

end Apart

/-- `src` leads by a link to the folder at `a` and `real` is a path of that folder itself. The destination ends in
a name and can be made apart from the folder, and no path of the copy is too long. -/
structure Linked (d : Disk) (src real dst : Path) (a root b : Place) : Prop where
  link : ∃ place, d.lstat src = .ok place ∧ d.isLinkAt place
  leads : d.stat src = .ok a
  direct : d.lstat real = .ok a
  apart : d.Apart dst a root b
  named : ∃ front m, dst.bare = front ++ [.down m]
  makes : (d.makeFolders dst).1 = .ok ()
  short : ∀ rel, (d.item? (a ++ rel)).isSome → ∀ p ∈ [src, real, dst], Text.utf8Size (rel.foldl Path.join p) < pathLimit

namespace Linked

theorem stat_real (h : d.Linked src real dst a root b) : d.stat real = .ok a := by
  obtain ⟨hc, hlook, hi⟩ := seek_ok.mp h.direct
  exact seek_ok.mpr ⟨hc, hlook.follow_of_look h.apart.folder, hi⟩

theorem stat_entry (h : d.Linked src real dst a root b) (hg : Grown root d d') (hi : (d.item? (a ++ rel)).isSome)
    (hlink : d.isLinkAt (a ++ rel) = false) :
    d'.stat (rel.foldl Path.join src) = .ok (a ++ rel) ∧ d'.stat (rel.foldl Path.join real) = .ok (a ++ rel) := by
  have hshort := h.short rel hi
  exact ⟨h.apart.stat_source hg h.leads hi hlink (hshort src (by simp)),
    h.apart.stat_source hg h.stat_real hi hlink (hshort real (by simp))⟩

theorem checkPath_dst (h : d.Linked src real dst a root b) : checkPath dst = .ok () := by
  obtain ⟨home, before, n, after, -, -, -, hbare, -⟩ := h.apart.way
  have hne : dst ≠ [] := by
    rintro rfl
    simp [Path.bare, Text.pieces, Step.ofPiece?] at hbare
  exact (isFolder_iff_route.mp (isFolder_of_makeFolders hne h.makes)).1

theorem route_made (h : d.Linked src real dst a root b) :
    (d.makeFolders dst).2.Route .follow linkLimit ((d.makeFolders dst).2.start dst) dst.bare b ∧
      (d.makeFolders dst).2.isFolderAt b := by
  have hg := h.apart.makeFolders_source.1
  obtain ⟨-, place, hr, hf⟩ :=
    isFolder_iff_route.mp (isFolder_of_makeFolders (checkPath_ok h.checkPath_dst).2.1 h.makes)
  obtain ⟨home, before, n, after, rfl, rfl, hbrink, hbare, hup⟩ := h.apart.way
  have hplace : place = home ++ [n] ++ Step.names after := by
    rw [Within.start hg.cwd, hbare] at hr
    exact hbrink.lands h.apart.free hg hr hup
  rw [← hplace]
  exact ⟨hr, hf⟩

end Linked

end Disk

namespace TreeCopy

variable {c : TreeCopy} {real : Path} {d d' : Disk} {a root b : Place} {rel : List Name} {kind : EntryKind}
  {n : Name} {s s' after : Session} {depth : Nat} {items : List (Name × EntryKind)}
  {x y : Except Report Unit × Session} {walk walk' : List Name → EntryKind → Session → Except Report Unit × Session}

-- ---------------------------------------------------------------------------
-- One step of a walk
-- ---------------------------------------------------------------------------

def withSource (c : TreeCopy) (src : Path) : TreeCopy := { c with src }

@[simp] theorem withSource_durability (c : TreeCopy) (src : Path) : (c.withSource src).durability = c.durability := rfl

@[simp] theorem withSource_targetPath (c : TreeCopy) (src : Path) (rel : List Name) :
    (c.withSource src).targetPath rel = c.targetPath rel := rfl

@[simp] theorem withSource_sourcePath (c : TreeCopy) (src : Path) (rel : List Name) :
    (c.withSource src).sourcePath rel = rel.foldl Path.join src := rfl

theorem walkEach_links (c : TreeCopy) (depth : Nat) (rel : List Name) (hlinks : ∀ item ∈ items, item.2 = .link)
    (s : Session) : ∃ s', walkEach (c.within (depth + 1)) rel items (.ok (), s) = (.ok (), s') ∧ s'.disk = s.disk := by
  induction items generalizing s with
  | nil => exact ⟨s, rfl, rfl⟩
  | cons item items ih =>
    obtain ⟨s', hwalks, hdisk⟩ := ih (fun item hitem => hlinks item (List.mem_cons_of_mem _ hitem))
      (s.log .warn "copy: skipping symlink" [Record.text "path" (c.sourcePath (rel ++ [item.1]))])
    refine ⟨s', ?_, hdisk⟩
    have hwalk : c.within (depth + 1) (rel ++ [item.1]) .link s = c.entry (rel ++ [item.1]) .link s :=
      within_leaf c depth (by simp) (by simp) s
    rw [← hwalks, walkEach_cons, hlinks item List.mem_cons_self, hwalk]
    rfl

theorem walkEach_leading (c : TreeCopy) (depth : Nat) {links : List (Name × EntryKind)}
    (hlinks : ∀ item ∈ links, item.2 = .link) (n : Name) (kind : EntryKind) (later : List (Name × EntryKind))
    (s : Session) : ∃ s', s'.disk = s.disk ∧
      walkEach (c.within (depth + 1)) [] (links ++ (n, kind) :: later) (.ok (), s) =
        walkEach (c.within (depth + 1)) [] later (c.within (depth + 1) [n] kind s') := by
  obtain ⟨s', hwalks, hdisk⟩ := c.walkEach_links depth [] hlinks s
  refine ⟨s', hdisk, ?_⟩
  rw [walkEach] at hwalks
  rw [walkEach, List.foldl_append, hwalks]
  rfl

-- ---------------------------------------------------------------------------
-- Both walks side by side
-- ---------------------------------------------------------------------------

/-- The copies go to one destination, so an entry is made alike if both find it. -/
theorem entry_alike (hdisk : s.disk = s'.disk)
    (hstat : kind = .other → s'.disk.stat (c.sourcePath rel) = s'.disk.stat (rel.foldl Path.join real)) :
    Alike (c.entry rel kind s) ((c.withSource real).entry rel kind s') := by
  unfold entry
  simp only [withSource_targetPath, hdisk]
  cases kind with
  | folder =>
    cases s'.disk.makeFolders (c.targetPath rel) with
    | mk result d => cases result <;> exact ⟨rfl, rfl⟩
  | link => exact ⟨rfl, hdisk⟩
  | other =>
    simp only [withSource_sourcePath, withSource_durability, Disk.copyFile_congr (hstat rfl)]
    cases s'.disk.copyFile (rel.foldl Path.join real) (c.targetPath rel) c.durability with
    | mk arrived d => cases arrived <;> exact ⟨rfl, rfl⟩

theorem walkEach_alike {P : Disk → Prop} (hwalk : ∀ item ∈ items, ∀ s s' : Session, s.disk = s'.disk → P s.disk →
      Alike (walk (rel ++ [item.1]) item.2 s) (walk' (rel ++ [item.1]) item.2 s') ∧
        P (walk (rel ++ [item.1]) item.2 s).2.disk)
    (h : Alike x y) (hx : P x.2.disk) : Alike (walkEach walk rel items x) (walkEach walk' rel items y) := by
  refine (List.foldl_rel (r := fun x y => Alike x y ∧ P x.2.disk) ⟨h, hx⟩ fun item hitem x y hxy => ?_).1
  obtain ⟨h, hx⟩ := hxy
  rcases x with ⟨r | _, s⟩ <;> rcases y with ⟨r' | _, s'⟩
  · exact ⟨⟨rfl, h.disk⟩, hx⟩
  · cases h.success
  · cases h.success
  · exact hwalk item hitem s s' h.disk hx

theorem children_alike (h : d.Linked c.src real c.dst a root b)
    (hwalk : ∀ n kind s s', d.Visits a (rel ++ [n]) kind → Disk.Grown root d s.disk → s.disk = s'.disk →
      Alike (c.within depth (rel ++ [n]) kind s) ((c.withSource real).within depth (rel ++ [n]) kind s'))
    (hg : Disk.Grown root d s.disk) (hdisk : s.disk = s'.disk) :
    Alike (walkEach (c.within depth) rel (s.disk.entries (a ++ rel)) (.ok (), s))
      (walkEach ((c.withSource real).within depth) rel (s.disk.entries (a ++ rel)) (.ok (), s')) := by
  refine walkEach_alike (P := Disk.Grown root d) (fun item hitem t t' hdisk ht => ?_) ⟨rfl, hdisk⟩ hg
  have hvisit := h.apart.visits_entry hg hitem
  exact ⟨hwalk _ _ _ _ hvisit ht hdisk, within_grown h.apart h.leads depth hvisit ht⟩

/-- From an entry that both walks take for the same kind, it does not matter by which path they came. -/
theorem within_alike (h : d.Linked c.src real c.dst a root b) (depth : Nat) (hvisit : d.Visits a rel kind)
    (hg : Disk.Grown root d s.disk) (hdisk : s.disk = s'.disk) :
    Alike (c.within depth rel kind s) ((c.withSource real).within depth rel kind s') := by
  induction depth generalizing rel kind s s' with
  | zero => exact ⟨rfl, hdisk⟩
  | succ depth ih =>
    have hentry : Alike (c.entry rel kind s) ((c.withSource real).entry rel kind s') := by
      refine entry_alike hdisk fun hother => ?_
      rw [← hdisk]
      have hlink := hvisit.not_link h.apart.folder (.inl (by simp [hother]))
      obtain ⟨hsrc, hreal⟩ := h.stat_entry hg hvisit.1 hlink
      exact hsrc.trans hreal.symm
    have hgrown := entry_apart h.apart hvisit hg
    by_cases hfolder : kind = .folder ∨ rel = []
    · have hf := hvisit.folder h.apart.folder hfolder
      have hlink := hvisit.not_link h.apart.folder (hfolder.imp (fun hk => by simp [hk]) id)
      obtain ⟨hsrc, hreal⟩ := h.stat_entry hg hvisit.1 hlink
      cases hx : c.entry rel kind s with
      | mk result t =>
      cases hy : (c.withSource real).entry rel kind s' with
      | mk result' t' =>
      rw [hx, hy] at hentry
      rw [hx] at hgrown
      rcases result with r | _ <;> rcases result' with r' | _
      · rw [within_failed hx depth, within_failed hy depth]
        exact hentry
      · cases hentry.success
      · cases hentry.success
      · rw [within_listed hfolder hsrc (hg.within.isFolderAt hf) hx depth,
          within_listed hfolder (hdisk ▸ hreal) (hdisk ▸ hg.within.isFolderAt hf) hy depth, ← hentry.disk]
        exact children_alike h (fun n kind s s' hvisit hs hdisk => ih hvisit hs hdisk) hgrown hentry.disk
    · obtain ⟨hkind, hrel⟩ := not_or.mp hfolder
      rw [within_leaf c depth hkind hrel, within_leaf _ depth hkind hrel]
      exact hentry

-- ---------------------------------------------------------------------------
-- A folder that comes first
-- ---------------------------------------------------------------------------

theorem checkPath_child (h : d.Linked c.src real c.dst a root b) (hi : (d.item? (a ++ [n])).isSome) :
    n.CanStand ∧ Disk.checkPath (c.dst.join n) = .ok () := by
  obtain ⟨item, hitem⟩ := Option.isSome_iff_exists.mp hi
  have hn := h.apart.tree.names hitem n (by simp)
  have hplain : ∀ m ∈ [n], m.IsPlain := by simpa using hn.1
  exact ⟨hn, Disk.checkPath_foldl_join hplain h.checkPath_dst (h.short [n] hi c.dst (by simp))⟩

/-- While the destination is missing, nothing can be made in it. -/
theorem makeFolder_early (h : d.Linked c.src real c.dst a root b) (hi : (d.item? (a ++ [n])).isSome) :
    d.makeFolder (c.dst.join n) = .error (.system .noEntry) := by
  obtain ⟨hn, hc⟩ := checkPath_child h hi
  have hg := h.apart.makeFolders_source.1
  have hmade := h.route_made.2
  obtain ⟨home, before, m, after, rfl, rfl, hbrink, hbare, hup⟩ := h.apart.way
  have hm : Text.utf8Size m ≤ nameLimit := by
    obtain ⟨mode, hitem⟩ := Disk.isFolderAt_iff.mp hmade
    exact (hg.tree.names hitem m (by simp)).2
  have hsteps : c.dst.bare ++ [.slash] = before ++ .down m :: (after ++ [.slash]) := by simp [hbare]
  have hwalk : d.walk .follow linkLimit (d.start c.dst) (c.dst.bare ++ [.slash]) = .error .noEntry := by
    rw [hsteps]
    exact hbrink.walk_past h.apart.free hm (by simp)
  simp [Disk.makeFolder, Disk.vacancy, Disk.folderOf, hc, Path.steps_join _ hn.1, Disk.splitLast_concat,
    Disk.start_join _ _ hn.1, hwalk, bind, Except.bind]

theorem makeFolder_child (h : d.Linked c.src real c.dst a root b) (hi : (d.item? (a ++ [n])).isSome) :
    (d.makeFolders c.dst).2.item? (b ++ [n]) = none ∧
      ∃ d', (d.makeFolders c.dst).2.makeFolder (c.dst.join n) = .ok d' := by
  obtain ⟨hn, hc⟩ := checkPath_child h hi
  obtain ⟨hr, hf⟩ := h.route_made
  have hfree : (d.makeFolders c.dst).2.item? (b ++ [n]) = none := by
    have hnil : ∀ m ∈ ([] : List Name), m.IsPlain := by simp
    rcases (makeFolders_apart h.apart (.refl h.apart.tree root) hnil).2 (b ++ [n]) (h.apart.free_below [n]) with
      hnone | ⟨-, hp⟩
    · exact hnone
    · exact absurd hp.length_le (by simp)
  exact ⟨hfree, _, Disk.makeFolder_ok.mpr ⟨b, n, false, Disk.folderOf_join hr hf hn.1 hc, hn.2, hfree, rfl⟩⟩

theorem within_first (h : d.Linked c.src real c.dst a root b) (depth : Nat) (hvisit : d.Visits a [n] .folder)
    (hs : s.disk = d) (hs' : s'.disk = (d.makeFolders c.dst).2) : Alike (c.within (depth + 1) [n] .folder s)
      ((c.withSource real).within (depth + 1) [n] .folder s') := by
  subst hs
  obtain ⟨hn, -⟩ := checkPath_child h hvisit.1
  obtain ⟨front, m, hnamed⟩ := h.named
  obtain ⟨-, made, hmade⟩ := makeFolder_child h hvisit.1
  have hg := h.apart.makeFolders_source.1
  have hearly : s.disk.makeFolders (c.dst.join n) = (.ok (), made) :=
    Disk.makeFolders_join h.checkPath_dst hnamed hn.1 (makeFolder_early h hvisit.1) rfl (Prod.ext h.makes rfl) hmade
  have hlate : (s.disk.makeFolders c.dst).2.makeFolders (c.dst.join n) = (.ok (), made) :=
    Disk.makeFolders_of_makeFolder (Path.join_ne_nil hn.1.1) hmade
  have htarget : c.targetPath [n] = c.dst.join n := targetPath_eq (by simpa using hn.1)
  have hentry : c.entry [n] .folder s = (.ok (), s.withDisk made) := by
    rw [entry]
    simp only [htarget, hearly]
  have hentry' : (c.withSource real).entry [n] .folder s' = (.ok (), s'.withDisk made) := by
    rw [entry]
    simp only [withSource_targetPath, htarget, hs', hlate]
  have hgrown := entry_apart h.apart hvisit (.refl h.apart.tree root)
  rw [hentry] at hgrown
  have hf := hvisit.folder h.apart.folder (.inl rfl)
  have hlink := hvisit.not_link h.apart.folder (.inl (by simp))
  rw [within_listed (.inl rfl) (h.stat_entry (.refl h.apart.tree root) hvisit.1 hlink).1 hf hentry depth,
    within_listed (.inl rfl) (hs' ▸ (h.stat_entry hg hvisit.1 hlink).2) (hs' ▸ hg.within.isFolderAt hf) hentry' depth]
  exact children_alike h (fun n kind t t' hvisit ht hdisk => within_alike h depth hvisit ht hdisk) hgrown rfl

theorem run_alike_within {place : Place} (hsrc : s.disk.stat c.src = .ok place) (hf : s.disk.isFolderAt place)
    (hdst : s.disk.there c.dst = false) {look : Place} (hlook : s.disk.lstat c.src = .ok look)
    (hkind : s.disk.kindAt look = kind) : Alike (c.run s) (c.within pathLimit [] kind s) := by
  have hfolder : s.disk.isFolder c.src = true := by simp [Disk.isFolder, hsrc, hf]
  rw [run]
  simp only [hfolder, hdst, hlook, hkind]
  cases c.within pathLimit [] kind s with
  | mk result after => cases result <;> exact ⟨rfl, rfl⟩

/-- Through the link the entries of the folder are walked with nothing made before; by the folder's own path the
destination is made first. -/
theorem run_walks_entries {limit : Nat} (hlimit : pathLimit = limit + 1)
    (h : s.disk.Linked c.src real c.dst a root b) :
    (∃ t, t.disk = s.disk ∧ Alike (c.run s) (walkEach (c.within limit) [] (s.disk.entries a) (.ok (), t))) ∧
    ∃ t, t.disk = (s.disk.makeFolders c.dst).2 ∧ Alike ((c.withSource real).run s)
      (walkEach ((c.withSource real).within limit) [] (s.disk.entries a) (.ok (), t)) := by
  have hf := h.apart.folder
  constructor
  · obtain ⟨place, hlook, hlink⟩ := h.link
    have hkind : s.disk.kindAt place = .link := by
      obtain ⟨id, hi⟩ := Disk.leaf_of_link hlink
      simp [Disk.kindAt, Disk.isFolderAt_of_leaf hi, hlink]
    refine ⟨s.log .warn "copy: skipping symlink" [Record.text "path" c.src], rfl, ?_⟩
    refine (run_alike_within h.leads hf h.apart.not_there hlook hkind).trans ?_
    rw [hlimit, within_listed (.inr rfl) h.leads hf rfl limit]
    exact ⟨rfl, rfl⟩
  · refine ⟨s.withDisk (s.disk.makeFolders c.dst).2, rfl, ?_⟩
    refine (run_alike_within (c := c.withSource real) h.stat_real hf h.apart.not_there h.direct
      (Disk.kindAt_eq_folder_iff.mpr hf)).trans ?_
    have hentry : (c.withSource real).entry [] .folder s =
        (.ok (), s.withDisk (s.disk.makeFolders c.dst).2) := by
      have htarget : c.targetPath [] = c.dst := rfl
      have hmakes : s.disk.makeFolders c.dst = (.ok (), (s.disk.makeFolders c.dst).2) := Prod.ext h.makes rfl
      rw [entry]
      simp only [withSource_targetPath, htarget]
      rw [hmakes]
    rw [hlimit, within_listed (.inr rfl) h.stat_real hf hentry limit, Session.disk_withDisk,
      h.apart.makeFolders_source.2]
    exact ⟨rfl, rfl⟩

/-- Both walks come to the first entry that is no link, and then to entries with other names. -/
theorem run_walks_leading (h : s.disk.Linked c.src real c.dst a root b) (hfirst : s.disk.leading? a = some (n, kind)) :
    s.disk.Visits a [n] kind ∧ ∃ depth later,
      (∀ entry ∈ later, entry.1 ≠ n ∧ s.disk.Visits a [entry.1] entry.2) ∧
      (∃ t, t.disk = s.disk ∧
        Alike (c.run s) (walkEach (c.within (depth + 1)) [] later (c.within (depth + 1) [n] kind t))) ∧
      ∃ t, t.disk = (s.disk.makeFolders c.dst).2 ∧ Alike ((c.withSource real).run s)
        (walkEach ((c.withSource real).within (depth + 1)) [] later
          ((c.withSource real).within (depth + 1) [n] kind t)) := by
  obtain ⟨depth, hdepth⟩ : ∃ depth, pathLimit = depth + 1 + 1 := ⟨4094, rfl⟩
  obtain ⟨⟨t, ht, hvia⟩, t', ht', hdirect⟩ := run_walks_entries hdepth h
  obtain ⟨-, links, later, hentries, hlinks⟩ := Disk.leading?_eq_some.mp hfirst
  have hvisits : ∀ entry ∈ (n, kind) :: later, s.disk.Visits a [entry.1] entry.2 := fun entry hentry =>
    h.apart.visits_root (hentries ▸ List.mem_append_right links hentry)
  obtain ⟨u, hu, hwalks⟩ := c.walkEach_leading depth hlinks n kind later t
  obtain ⟨u', hu', hwalks'⟩ := (c.withSource real).walkEach_leading depth hlinks n kind later t'
  rw [hentries, hwalks] at hvia
  rw [hentries, hwalks'] at hdirect
  refine ⟨hvisits _ List.mem_cons_self, depth, later, fun entry hentry => ⟨?_, ?_⟩, ⟨u, hu.trans ht, hvia⟩,
    u', hu'.trans ht', hdirect⟩
  · have hnodup := Disk.nodup_names s.disk a
    rw [← Disk.map_fst_entries, hentries, List.map_append, List.map_cons] at hnodup
    have hn := (List.nodup_cons.mp (List.nodup_append.mp hnodup).2.1).1
    have hmem : entry.1 ∈ later.map Prod.fst := List.mem_map_of_mem hentry
    exact fun heq => hn (heq ▸ hmem)
  · exact hvisits entry (List.mem_cons_of_mem _ hentry)

theorem run_alike (h : s.disk.Linked c.src real c.dst a root b) (hfirst : s.disk.leading? a = some (n, .folder)) :
    Alike (c.run s) ((c.withSource real).run s) := by
  obtain ⟨hvisit, depth, later, hlater, ⟨t, ht, hvia⟩, t', ht', hdirect⟩ := run_walks_leading h hfirst
  refine hvia.trans (.trans ?_ hdirect.symm)
  refine walkEach_alike (P := Disk.Grown root s.disk) (fun entry hentry u u' hdisk hu => ?_)
    (within_first h depth hvisit ht ht') (within_grown h.apart h.leads _ hvisit ?_)
  · have hvisit := (hlater entry hentry).2
    exact ⟨within_alike h _ hvisit hu hdisk, within_grown h.apart h.leads _ hvisit hu⟩
  · rw [ht]
    exact .refl h.apart.tree root

theorem run_direct_folder (h : s.disk.Linked c.src real c.dst a root b) :
    ((c.withSource real).run s).2.disk.isFolder c.dst = true := by
  obtain ⟨depth, hdepth⟩ : ∃ depth, pathLimit = depth + 1 := ⟨4095, rfl⟩
  obtain ⟨-, t, ht, hdirect⟩ := run_walks_entries hdepth h
  obtain ⟨hr, hf⟩ := h.route_made
  obtain ⟨hg, hkept⟩ : Disk.Grown root s.disk ((c.withSource real).run s).2.disk ∧
      (s.disk.makeFolders c.dst).2.Kept ((c.withSource real).run s).2.disk := by
    rw [hdirect.disk]
    refine walkEach_keeps (P := fun made => Disk.Grown root s.disk made ∧ (s.disk.makeFolders c.dst).2.Kept made)
      (fun entry hentry u hu => ⟨?_, hu.2.trans (within_kept _ _ _ _ u)⟩) ?_
    · exact within_grown (c := c.withSource real) h.apart h.stat_real _ (h.apart.visits_root hentry) hu.1
    · rw [ht]
      exact ⟨h.apart.makeFolders_source.1, (Disk.Within.refl _).kept⟩
  obtain ⟨mode, hm⟩ := Disk.isFolderAt_iff.mp hf
  refine Disk.isFolder_iff_route.mpr ⟨h.checkPath_dst, b, ?_, Disk.isFolderAt_of_item (hkept.item hm)⟩
  rw [Disk.Within.start (hg.cwd.trans h.apart.makeFolders_source.1.cwd.symm)]
  exact hr.kept hkept

-- ---------------------------------------------------------------------------
-- Nothing or a file that comes first
-- ---------------------------------------------------------------------------

theorem item?_copyFile (h : d.Apart c.dst a root b) (hg : Disk.Grown root d d') (hrel : ∀ n ∈ rel, n.IsPlain)
    (hne : rel ≠ []) {q : Place} (hq : q ≠ b ++ rel) (src : Path) (durability : Durability) (turns : Turns) :
    (d'.copyFile src (c.targetPath rel) durability turns).2.item? q = d'.item? q := by
  refine Disk.copyFile_keeps (P := fun made => made.item? q = d'.item? q) (fun place opened ho => ?_) rfl
  have hopened : opened.item? q = d'.item? q := by
    rcases Disk.openWrite_ok ho with ⟨folder, m, hl, rfl, rfl⟩ | ⟨id, -, -, rfl | ⟨-, mode, bytes, -, rfl⟩⟩
    · have htarget := eq_of_receives h hg hrel hne (.free hl)
      rw [Disk.item?_addNode _ _ _ (by simp), if_neg (htarget.symm ▸ hq.symm)]
    · rfl
    · rw [Disk.item?_setNode]
  refine ⟨hopened, fun bytes after ha => ?_⟩
  obtain ⟨id, -, rfl | ⟨mode, old, -, rfl⟩⟩ := Disk.append_ok ha
  · exact hopened
  · rwa [Disk.item?_setNode]

theorem within_beside (h : d.Apart c.dst a root b) (hsrc : d.stat c.src = .ok a) (depth : Nat) {m : Name}
    (hvisit : d.Visits a [m] kind) (hne : m ≠ n) (hg : Disk.Grown root d s.disk) :
    (c.within depth [m] kind s).2.disk.item? (b ++ [n]) = s.disk.item? (b ++ [n]) := by
  have hbeside (below : List Name) (hbelow : [m] <+: below) : ¬ b ++ [n] <+: b ++ below := by
    intro hp
    have hp : [n] <+: below := (List.prefix_append_right_inj b).mp hp
    have hsame := List.prefix_of_prefix_length_le hbelow hp (by simp)
    exact hne (by simpa using hsame)
  refine (within_apart (P := fun made => Disk.Grown root d made ∧ made.item? (b ++ [n]) = s.disk.item? (b ++ [n]))
    h hsrc (fun _ hs => hs.1) (fun below hbelow hvisit made hs => ?_) (fun below hbelow hvisit made hs => ?_) depth
    hvisit ⟨hg, rfl⟩).1.2
  · obtain ⟨hgrown, hmade⟩ := makeFolders_apart h hs.1 (hvisit.plain h.tree)
    refine ⟨hgrown, ?_⟩
    rw [← hs.2]
    cases hi : made.item? (b ++ [n]) with
    | some item => exact (Disk.within_makeFolders made _).item hi
    | none => exact (hmade _ hi).resolve_right fun hnew => hbeside below hbelow hnew.2
  · have hrel := hvisit.plain h.tree
    obtain ⟨hrelne, -⟩ := hvisit.leaf
    refine ⟨copyFile_apart h hs.1 hrel hrelne _ _ _, ?_⟩
    rw [item?_copyFile h hs.1 hrel hrelne (fun heq => hbeside below hbelow (heq ▸ List.prefix_rfl)), hs.2]

theorem walkEach_beside (h : d.Apart c.dst a root b) (hsrc : d.stat c.src = .ok a) (depth : Nat)
    (hitems : ∀ item ∈ items, item.1 ≠ n ∧ d.Visits a [item.1] item.2) (hg : Disk.Grown root d x.2.disk) :
    (walkEach (c.within depth) [] items x).2.disk.item? (b ++ [n]) = x.2.disk.item? (b ++ [n]) := by
  refine (walkEach_keeps (P := fun made => Disk.Grown root d made ∧ made.item? (b ++ [n]) = x.2.disk.item? (b ++ [n]))
    (fun item hitem s hs => ?_) ⟨hg, rfl⟩).2
  obtain ⟨hne, hvisit⟩ := hitems item hitem
  exact ⟨within_grown h hsrc depth hvisit hs.1, (within_beside h hsrc depth hvisit hne hs.1).trans hs.2⟩

theorem copyFile_early (h : d.Apart c.dst a root b) (hn : n.IsPlain) (src : Path) (durability : Durability)
    (turns : Turns) : (d.copyFile src (c.targetPath [n]) durability turns).2 = d := by
  refine Disk.copyFile_idle (fun target hopen => ?_) src durability turns
  obtain rfl := eq_of_receives h (.refl h.tree root) (by simpa using hn) (by simp) hopen
  generalize hplace : b ++ [n] = place at hopen
  cases hopen with
  | @free folder m hl =>
    obtain ⟨rfl, -⟩ := List.append_inj' hplace rfl
    have hf := (Disk.locate_free hl).2.isFolder
    have hfree := h.free_below []
    rw [List.append_nil] at hfree
    simp [Disk.isFolderAt, hfree] at hf
  | file hl hnode =>
    obtain ⟨id, hi, -⟩ := Disk.leaf_of_node? hnode
    rw [← hplace, h.free_below] at hi
    cases hi

theorem copyFile_late (h : d.Linked c.src real c.dst a root b) (hvisit : d.Visits a [n] .other)
    (durability : Durability) :
    ∃ made, (d.makeFolders c.dst).2.copyFile (real.join n) (c.targetPath [n]) durability = (true, made) ∧
      (made.item? (b ++ [n])).isSome := by
  obtain ⟨-, id, hleaf, hlink⟩ := hvisit.leaf
  obtain ⟨hn, hc⟩ := checkPath_child h hvisit.1
  obtain ⟨hr, hf⟩ := h.route_made
  have hg := h.apart.makeFolders_source.1
  have hfree : (d.makeFolders c.dst).2.locate .create (c.targetPath [n]) = .ok (.free b n) := by
    rw [targetPath_eq (by simpa using hn.1)]
    refine bind_eq_ok.mpr ⟨(), hc, mapError_ok_iff.mpr ?_⟩
    show (d.makeFolders c.dst).2.walk .create linkLimit ((d.makeFolders c.dst).2.start (c.dst.join n))
      (c.dst.join n).steps = _
    rw [Disk.start_join _ _ hn.1, Path.steps_join _ hn.1]
    exact hr.walk_free hf hn.2 (makeFolder_child h hvisit.1).1
  have hstat := (h.stat_entry hg hvisit.1 (hvisit.not_link h.apart.folder (.inl (by simp)))).2
  obtain ⟨made, hcopy, -, hnode⟩ := Disk.copyFile_free hg.tree hstat (hg.within.node? (Disk.node?_of_leaf hleaf)) hlink
    hfree hn.1 durability
  obtain ⟨id', hi, -⟩ := Disk.leaf_of_node? hnode
  exact ⟨made, hcopy, by simp [hi]⟩

theorem run_differs (h : s.disk.Linked c.src real c.dst a root b) (hfirst : s.disk.leading? a = some (n, .other)) :
    (c.run s).2.disk.item? (b ++ [n]) = none ∧
      (((c.withSource real).run s).2.disk.item? (b ++ [n])).isSome := by
  obtain ⟨hvisit, depth, later, hlater, ⟨t, ht, hvia⟩, t', ht', hdirect⟩ := run_walks_leading h hfirst
  have hplain : n.IsPlain := hvisit.plain h.apart.tree n (by simp)
  constructor
  · have hidle : (c.within (depth + 1) [n] .other t).2.disk = s.disk := by
      rw [within_leaf c depth (by simp) (by simp)]
      refine entry_keeps (P := (· = s.disk)) (by simp) (fun _ => ?_) ht
      rw [ht]
      exact copyFile_early h.apart hplain _ _ _
    rw [hvia.disk, walkEach_beside h.apart h.leads _ hlater (hidle ▸ .refl h.apart.tree root), hidle]
    exact h.apart.free_below [n]
  · obtain ⟨made, hcopy, hi⟩ := copyFile_late h hvisit c.durability
    have hentry : ((c.withSource real).within (depth + 1) [n] .other t').2.disk = made := by
      rw [within_leaf _ depth (by simp) (by simp), entry]
      simp only [withSource_targetPath, withSource_sourcePath, withSource_durability, List.foldl_cons, List.foldl_nil,
        ht', hcopy]
      rfl
    have hgrown : Disk.Grown root s.disk made := by
      rw [← hentry]
      refine within_grown (c := c.withSource real) h.apart h.stat_real _ hvisit ?_
      rw [ht']
      exact h.apart.makeFolders_source.1
    rw [hdirect.disk, walkEach_beside (c := c.withSource real) h.apart h.stat_real _ hlater (hentry.symm ▸ hgrown),
      hentry]
    exact hi

theorem run_idle (h : s.disk.Linked c.src real c.dst a root b) (hnone : s.disk.leading? a = none) :
    (c.run s).1.isOk = true ∧ (c.run s).2.disk = s.disk := by
  obtain ⟨depth, hdepth⟩ : ∃ depth, pathLimit = depth + 1 + 1 := ⟨4094, rfl⟩
  obtain ⟨⟨t, ht, hvia⟩, -⟩ := run_walks_entries hdepth h
  obtain ⟨u, hwalks, hu⟩ := c.walkEach_links depth [] (Disk.leading?_eq_none.mp hnone) t
  rw [hwalks] at hvia
  exact ⟨hvia.success, hvia.disk.trans (hu.trans ht)⟩

end TreeCopy

-- ---------------------------------------------------------------------------
-- The whole copy
-- ---------------------------------------------------------------------------

/-- Two copies to `dst`, whose place is `b`, come to the same, and if they succeed, `dst` is a folder. -/
structure SameCopy (dst : Path) (b : Place) (x y : Except Report Unit × Session) : Prop where
  success : x.1.isOk = y.1.isOk
  tree : ∀ rel, x.2.disk.SameAt y.2.disk (b ++ rel)
  folder : x.1.isOk = true → x.2.disk.isFolder dst = true

namespace Session

/-- To copy through a link is to copy what it leads to just if the first entry that is no link is a folder. -/
theorem copyTree_through_link (s : Session) (src real dst : Path) (durability : Durability) {a root b : Place}
    (h : s.disk.Linked src real dst a root b) :
    (SameCopy dst b (s.copyTree src dst durability) (s.copyTree real dst durability) ↔
      ∃ n, s.disk.leading? a = some (n, .folder)) ∧
    ((∃ n, s.disk.leading? a = some (n, .folder)) →
      (s.copyTree src dst durability).2.disk = (s.copyTree real dst durability).2.disk) := by
  have halike (hfirst : ∃ n, s.disk.leading? a = some (n, .folder)) :
      Alike (s.copyTree src dst durability) (s.copyTree real dst durability) := by
    obtain ⟨n, hfirst⟩ := hfirst
    exact TreeCopy.run_alike (c := ⟨src, dst, durability⟩) h hfirst
  refine ⟨⟨fun hsame => ?_, fun hfirst => ?_⟩, fun hfirst => (halike hfirst).disk⟩
  · cases hfirst : s.disk.leading? a with
    | none =>
      obtain ⟨hok, hdisk⟩ := TreeCopy.run_idle (c := ⟨src, dst, durability⟩) h hfirst
      have hfolder := hsame.folder hok
      rw [copyTree, hdisk] at hfolder
      obtain ⟨place, hstat, -⟩ := Disk.isFolder_iff.mp hfolder
      have hthere := h.apart.not_there
      simp [Disk.there, hstat, Except.isOk, Except.toBool] at hthere
    | some entry =>
      obtain ⟨n, kind⟩ := entry
      cases kind with
      | folder => exact ⟨n, rfl⟩
      | link => exact absurd rfl (Disk.leading?_eq_some.mp hfirst).1
      | other =>
        obtain ⟨hvia, hdirect⟩ := TreeCopy.run_differs (c := ⟨src, dst, durability⟩) h hfirst
        have hsome : ((s.copyTree real dst durability).2.disk.item? (b ++ [n])).isSome = true := hdirect
        rw [(hsame.tree [n]).1.trans hvia] at hsome
        cases hsome
  · have halike := halike hfirst
    refine ⟨halike.success, fun rel => ?_, fun _ => ?_⟩
    · rw [halike.disk]
      exact .refl _ _
    · rw [halike.disk]
      exact TreeCopy.run_direct_folder (c := ⟨src, dst, durability⟩) h

def linkedFolders : Session where
  world := { disk := {
    items := [([['e']], .folder 0o755), ([['g']], .folder 0o755), ([['g'], ['f']], .leaf 0),
      ([['r']], .folder 0o755), ([['r'], ['s']], .folder 0o755), ([['r'], ['f']], .leaf 0),
      (["le".toList], .leaf 1), (["lg".toList], .leaf 2), (["lr".toList], .leaf 3)]
    nodes := [(0, .file 0o644 [1]), (1, .link ['e']), (2, .link ['g']), (3, .link ['r'])]
    cwd := [] } }

theorem linkedFolders_copied : linkedFolders.disk.Linked "lr".toList "/r".toList "m/t".toList [['r']] [['m']]
      [['m'], ['t']] ∧
    linkedFolders.disk.leading? [['r']] = some (['s'], .folder) ∧
    SameCopy "m/t".toList [['m'], ['t']] (linkedFolders.copyTree "lr".toList "m/t".toList .full)
      (linkedFolders.copyTree "/r".toList "m/t".toList .full) := by
  have hd : linkedFolders.disk.WellFormed := .of_items (by decide)
  have hbrink : linkedFolders.disk.Brink [] [] ['m'] [] := by
    refine ⟨hd, by decide, .done, fun {place} hr => ?_⟩
    have hwalk : linkedFolders.disk.walk .follow linkLimit [] [.down ['m']] = .ok (.free [] ['m']) := by decide
    cases (Disk.walk_found.mpr hr).symm.trans hwalk
  have h : linkedFolders.disk.Linked "lr".toList "/r".toList "m/t".toList [['r']] [['m']] [['m'], ['t']] := by
    refine ⟨⟨["lr".toList], by decide, by decide⟩, by decide, by decide, ⟨by decide, by decide, by decide, ?_⟩,
      ⟨[.down ['m']], ['t'], by decide⟩, by decide +kernel, fun rel hs => ?_⟩
    · exact ⟨[], [], ['m'], [.down ['t']], rfl, rfl, hbrink, by decide, by decide⟩
    · obtain ⟨item, hi⟩ := Option.isSome_iff_exists.mp hs
      rw [Disk.item?_eq_get? (by simp)] at hi
      have hshort : ∀ entry ∈ linkedFolders.disk.items, ∀ p ∈ ["lr".toList, "/r".toList, "m/t".toList],
          Text.utf8Size ((entry.1.drop 1).foldl Path.join p) < pathLimit := by decide
      exact hshort _ (Table.mem_of_get? hi)
  have hfirst : linkedFolders.disk.leading? [['r']] = some (['s'], .folder) := by decide
  exact ⟨h, hfirst, (copyTree_through_link _ _ _ _ .full h).1.mpr ⟨_, hfirst⟩⟩

/-- Through the link to the empty folder the copy succeeds and makes nothing; through the link to the folder that holds
only a file it fails. -/
theorem copyTree_through_link_differs :
    (linkedFolders.copyTree "le".toList ['t'] .full).1.isOk = true ∧
    (linkedFolders.copyTree "le".toList ['t'] .full).2.disk.there ['t'] = false ∧
    (linkedFolders.copyTree "/e".toList ['t'] .full).2.disk.isFolder ['t'] = true ∧
    (linkedFolders.copyTree "lg".toList ['t'] .full).1.isOk = false ∧
    (linkedFolders.copyTree "/g".toList ['t'] .full).1.isOk = true := by
  decide +kernel

end Session

end SafeFiles
