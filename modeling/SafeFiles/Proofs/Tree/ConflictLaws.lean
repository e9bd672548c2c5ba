import SafeFiles.Proofs.Tree.ListingLaws

/-!
# A file inside a folder

The listing knows a file only by the path on which its folder was listed, and a
folder is listed on the first path that reaches it, level by level. So a file
conflicts with a folder above it just when the plain way down to its own folder
comes first, and it does come first when no other way is as short.
-/

namespace SafeFiles

namespace Listing

variable {d : Disk} {extensions : List Text} {root f g p : Path} {home place folder q : Place} {names : List Name}
  {n : Name} {l : Listing} {level fuel : Nat} {waiting : List Path} {k : Path}

-- ---------------------------------------------------------------------------
-- A listing only grows
-- ---------------------------------------------------------------------------

theorem addFolder_grows (d : Disk) (extensions : List Text) (l : Listing) (f : Path) :
    l.files <+: (addFolder d extensions l f).files ∧ l.folders <+: (addFolder d extensions l f).folders := by
  rw [addFolder]
  split
  · exact ⟨List.prefix_rfl, List.prefix_rfl⟩
  · split
    · exact ⟨List.prefix_rfl, List.prefix_rfl⟩
    · rw [foldl_addEntry]
      exact ⟨List.prefix_append _ _, List.prefix_append _ _⟩

theorem foldl_addFolder_grows (d : Disk) (extensions : List Text) (waiting : List Path) (l : Listing) :
    l.files <+: (waiting.foldl (addFolder d extensions) l).files ∧
      l.folders <+: (waiting.foldl (addFolder d extensions) l).folders := by
  induction waiting generalizing l with
  | nil => exact ⟨List.prefix_rfl, List.prefix_rfl⟩
  | cons f waiting ih =>
    obtain ⟨hfiles, hfolders⟩ := addFolder_grows d extensions l f
    exact ⟨hfiles.trans (ih _).1, hfolders.trans (ih _).2⟩

theorem levels_grows (l : Listing) : l.files <+: (levels d extensions fuel l).files := by
  induction fuel generalizing l with
  | zero => exact List.prefix_rfl
  | succ fuel ih =>
    rw [levels]
    split
    · exact List.prefix_rfl
    · exact (foldl_addFolder_grows d extensions l.folders { l with folders := [] }).1.trans (ih _)

/-- The files listed are those that stand, when its turn comes, in a folder that is listed. -/
theorem mem_enumerate (hd : d.WellFormed) (hroot : d.stat root = .ok home) (hhome : d.isFolderAt home) :
    p ∈ d.enumerate root extensions ↔ ∃ f folder n, Lists d extensions root f ∧ d.stat f = .ok folder ∧
      n ∈ d.names folder ∧ p = f.join n ∧ d.isFile p = true ∧ accepts extensions n = true := by
  constructor
  · obtain ⟨-, level, hlast⟩ := exists_last_stage extensions hd hroot hhome
    rw [Disk.enumerate]
    generalize d.listTree root extensions = l at hlast
    generalize [] = waiting at hlast
    intro hp
    induction hlast with
    | start => cases hp
    | @list level l f waiting hstage ih =>
      have hqueued := (hstage.queued hd hroot hhome).1 f List.mem_cons_self
      obtain ⟨-, folder, hf, -, -, ⟨-, heq⟩ | ⟨hkey, heq⟩⟩ := hqueued.addFolder_cases l
      · rw [heq] at hp
        exact ih hp
      · rw [heq] at hp
        rcases List.mem_append.mp hp with hp | hp
        · exact ih hp
        · obtain ⟨n, hn, rfl⟩ := List.mem_map.mp hp
          obtain ⟨hn, htaken⟩ := List.mem_filter.mp hn
          obtain ⟨hfile, haccepts⟩ := Bool.and_eq_true_iff.mp htaken
          exact ⟨f, folder, n, ⟨level, l, waiting, hstage, hkey⟩, hf, hn, rfl, hfile, haccepts⟩
    | descend _ _ ih => exact ih hp
  · rintro ⟨f, folder, n, ⟨level, l, waiting, hstage, hkey⟩, hf, hn, rfl, hfile, haccepts⟩
    obtain ⟨-, rel, place, -, -, hstat, hfolder, -⟩ := (hstage.queued hd hroot hhome).1 f List.mem_cons_self
    obtain rfl : place = folder := by simpa [hstat] using hf
    rw [Disk.enumerate, hstage.list.listTree_eq hd hroot hhome]
    refine ((foldl_addFolder_grows d extensions waiting _).1.trans (levels_grows _)).subset ?_
    rw [addFolder_fresh hkey (Disk.list_of_stat hstat hfolder)]
    refine List.mem_append_right _ (List.mem_map_of_mem (List.mem_filter.mpr ⟨hn, ?_⟩))
    simp [hfile, haccepts]

-- ---------------------------------------------------------------------------
-- Whose turn comes first
-- ---------------------------------------------------------------------------

theorem Stage.turn (h : Stage d extensions root level l waiting) (hf : f ∈ waiting) :
    ∃ l rest, Stage d extensions root level l (f :: rest) := by
  induction waiting generalizing l with
  | nil => cases hf
  | cons g waiting ih =>
    rcases List.mem_cons.mp hf with rfl | hf
    · exact ⟨l, waiting, h⟩
    · exact ih h.list hf

theorem Stage.turn_below (h : Stage d extensions root level l waiting) (hf : f ∈ l.folders) :
    ∃ l rest, Stage d extensions root (level + 1) l (f :: rest) := by
  have hmem := (foldl_addFolder_grows d extensions waiting l).2.subset hf
  exact (h.list_all.descend (List.ne_nil_of_mem hmem)).turn hmem

/-- Behind every key stands a folder that has been listed, at this level or one before. -/
theorem Stage.lists_of_listed (hd : d.WellFormed) (hroot : d.stat root = .ok home) (hhome : d.isFolderAt home)
    (h : Stage d extensions root level l waiting) (hk : k ∈ l.listed) :
    ∃ g, key d g = k ∧ Lists d extensions root g ∧ ∃ earlier ≤ level, Queued d extensions root home earlier g := by
  induction h with
  | start => cases hk
  | @list level l f waiting hstage ih =>
    have hqueued := (hstage.queued hd hroot hhome).1 f List.mem_cons_self
    obtain ⟨-, folder, -, -, -, ⟨-, heq⟩ | ⟨hkey, heq⟩⟩ := hqueued.addFolder_cases l
    · rw [heq] at hk
      exact ih hk
    · rw [heq] at hk
      rcases List.mem_append.mp hk with hk | hk
      · exact ih hk
      · obtain rfl := List.mem_singleton.mp hk
        exact ⟨f, rfl, ⟨level, l, waiting, hstage, hkey⟩, level, Nat.le_refl _, hqueued⟩
  | descend _ _ ih =>
    obtain ⟨g, hg, hlists, earlier, hle, hqueued⟩ := ih hk
    exact ⟨g, hg, hlists, earlier, Nat.le_succ_of_le hle, hqueued⟩

theorem eq_of_stat_path (hd : d.WellFormed) (hfolder : d.isFolderAt folder) (h : d.stat folder.path = .ok place) :
    place = folder := by
  obtain ⟨mode, hi⟩ := Disk.isFolderAt_iff.mp hfolder
  have hr := Disk.stat_bare h
  rw [Place.bare_path folder fun n hn => (hd.names hi n hn).1, Disk.start, if_pos (Place.isAbsolute_path folder)] at hr
  have hdown : d.Route .follow linkLimit [] (folder.map .down ++ []) folder := .enter hd folder hfolder .done
  rw [List.append_nil] at hdown
  exact hr.unique hdown

theorem key_eq_ite (hf : d.stat f = .ok folder) :
    key d f = if Text.utf8Size folder.path < pathLimit then folder.path else f := by
  split
  · rename_i hlen
    exact key_of_stat hf hlen
  · rename_i hlen
    obtain ⟨hc, hroute, -⟩ := Disk.seek_ok.mp hf
    cases hreal : d.realPlace f with
    | error fault => simp [key, Disk.realPath, hreal, Except.map]
    | ok place =>
      obtain ⟨-, hroute', hshort⟩ := Disk.realPlace_ok.mp hreal
      exact absurd (hroute.unique hroute' ▸ hshort) hlen

/-- Two folders with one key are one folder, even where a real path is too long to be asked for. -/
theorem key_inj (hd : d.WellFormed) (hf : d.stat f = .ok folder) (hfolder : d.isFolderAt folder)
    (hg : d.stat g = .ok place) (hplace : d.isFolderAt place) (h : key d f = key d g) : folder = place := by
  rw [key_eq_ite hf, key_eq_ite hg] at h
  obtain ⟨mode, hi⟩ := Disk.isFolderAt_iff.mp hfolder
  obtain ⟨mode', hi'⟩ := Disk.isFolderAt_iff.mp hplace
  split at h <;> split at h
  · exact Place.path_inj (fun n hn => (hd.names hi n hn).1) (fun n hn => (hd.names hi' n hn).1) h
  · rw [← h] at hg
    exact (eq_of_stat_path hd hfolder hg).symm
  · rw [h] at hf
    exact eq_of_stat_path hd hplace hf
  · rw [h, hg] at hf
    exact (Except.ok.inj hf).symm

end Listing

-- ---------------------------------------------------------------------------
-- Conflicts
-- ---------------------------------------------------------------------------

namespace Disk

/-- `a` leads to the folder `home`, and `b` from there down by `names`, through real folders, to a file. -/
structure Below (d : Disk) (a b : Path) (home : Place) (names : List Name) : Prop where
  tree : d.WellFormed
  folder : d.stat a = .ok home
  isFolder : d.isFolderAt home
  named : names ≠ []
  spelled : b.components = a.components ++ names.map .name
  file : d.stat b = .ok (home ++ names)
  isFile : (d.node? (home ++ names)).any Node.isFile
  /-- Files are listed by paths that begin with `a` as it is spelled. -/
  short : Text.utf8Size (names.foldl Path.join a) < pathLimit

/-- No way from `home` to a folder on the way down by `names` is as short as the way down itself. -/
def Foremost (d : Disk) (home : Place) (names : List Name) : Prop :=
  ∀ front rel, front <+: names.dropLast → d.Passage home rel (home ++ front) → rel.length ≤ front.length → rel = front

variable {d : Disk} {a b p : Path} {home place : Place} {names front : List Name} {n : Name}

namespace Below

theorem plain (h : d.Below a b home names) : ∀ n ∈ names, n.IsPlain := by
  obtain ⟨item, hi⟩ := Option.isSome_iff_exists.mp (isSome_of_isFile h.isFile)
  exact fun n hn => (h.tree.names hi n (by simp [hn])).1

theorem isLinkAt (h : d.Below a b home names) : d.isLinkAt (home ++ names) = false := by
  have hfile := h.isFile
  unfold Disk.isLinkAt
  cases hnode : d.node? (home ++ names) with
  | none => rfl
  | some node =>
    rw [hnode] at hfile
    cases node <;> first | rfl | simp [Node.isFile] at hfile

theorem components_joined (h : d.Below a b home names) : (names.foldl Path.join a).components = b.components := by
  have hne := (checkPath_ok (seek_ok.mp h.folder).1).2.1
  rw [Path.components_foldl_join hne h.plain, h.spelled]

theorem stat_joined (h : d.Below a b home names) : d.stat (names.foldl Path.join a) = .ok (home ++ names) := by
  obtain ⟨hc, hroute, -⟩ := seek_ok.mp h.folder
  exact stat_foldl_join h.tree hc hroute h.isFolder (isSome_of_isFile h.isFile) h.isLinkAt h.short

theorem split_names (h : d.Below a b home names) : ∃ n, names = names.dropLast ++ [n] :=
  ⟨names.getLast h.named, (List.dropLast_append_getLast h.named).symm⟩

theorem stat_front (h : d.Below a b home names) (hfront : front <+: names.dropLast) :
    d.stat (front.foldl Path.join a) = .ok (home ++ front) ∧ d.isFolderAt (home ++ front) := by
  obtain ⟨n, hn⟩ := h.split_names
  obtain ⟨mid, hmid⟩ := hfront
  have hnames : names = front ++ (mid ++ [n]) := by rw [hn, ← hmid, List.append_assoc]
  have hfolder : d.isFolderAt (home ++ front) := by
    refine h.tree.isFolderAt_above (mid ++ [n]) (by simp) ?_
    rw [List.append_assoc, ← hnames]
    exact isSome_of_isFile h.isFile
  refine ⟨?_, hfolder⟩
  obtain ⟨hc, hroute, -⟩ := seek_ok.mp h.folder
  refine stat_foldl_join h.tree hc hroute h.isFolder (isSome_of_isFolderAt hfolder) ?_ ?_
  · obtain ⟨mode, hi⟩ := isFolderAt_iff.mp hfolder
    simp [Disk.isLinkAt, node?, hi]
  · have hplain : ∀ m ∈ mid ++ [n], m.IsPlain := fun m hm =>
      h.plain m (by rw [hnames]; exact List.mem_append_right _ hm)
    have hgrows := Path.length_le_utf8Size_foldl_join (front.foldl Path.join a) hplain
    rw [← List.foldl_append, ← hnames] at hgrows
    have := h.short
    omega

theorem eq_joined (h : d.Below a b home names) (hp : p ∈ d.enumerate a [] ) (hsame : p.components = b.components) :
    p = names.foldl Path.join a := by
  obtain ⟨f, folder, n, ⟨level, l, waiting, hstage, -⟩, hf, hn, rfl, -⟩ :=
    (Listing.mem_enumerate h.tree h.folder h.isFolder).mp hp
  obtain ⟨rel, rfl, -, hplain⟩ := ((hstage.queued h.tree h.folder h.isFolder).1 f List.mem_cons_self).plain h.tree
  have hne := (checkPath_ok (seek_ok.mp h.folder).1).2.1
  have hrel : ∀ m ∈ rel ++ [n], m.IsPlain := by
    simpa [or_imp, forall_and] using ⟨hplain, h.tree.plain_of_mem_names hn⟩
  have hjoin : (rel.foldl Path.join a).join n = (rel ++ [n]).foldl Path.join a := by simp
  rw [hjoin, Path.components_foldl_join hne hrel, h.spelled] at hsame
  have hnames := List.map_injective_iff.mpr (fun _ _ hc => Component.name.inj hc) (List.append_cancel_left hsame)
  rw [hjoin, hnames]

theorem any_same_iff (h : d.Below a b home names) :
    ((d.enumerate a []).any fun p => p.same b) = true ↔ names.foldl Path.join a ∈ d.enumerate a [] := by
  simp only [List.any_eq_true, Path.same, decide_eq_true_iff]
  constructor
  · rintro ⟨p, hp, hsame⟩
    rwa [← h.eq_joined hp hsame]
  · exact fun hmem => ⟨_, hmem, h.components_joined⟩

theorem conflicts_iff (h : d.Below a b home names) :
    (d.conflicts a b = true ↔ names.foldl Path.join a ∈ d.enumerate a []) ∧
      (d.conflicts b a = true ↔ names.foldl Path.join a ∈ d.enumerate a []) := by
  have hab : a.components ≠ b.components := by
    rw [h.spelled]
    simpa using h.named
  have hnone : d.enumerate b [] = [] := by
    have hfolder : d.isFolder b = false := isFolder_of_isFile (isFile_iff.mpr ⟨_, h.file, h.isFile⟩)
    simp [enumerate, listTree, hfolder]
  have hsymm : Path.same b = fun p => p.same b := by
    funext p
    simp [Path.same, eq_comm]
  rw [← h.any_same_iff]
  constructor
  · simp [conflicts, hnone, hsymm, Path.same, hab]
  · simp [conflicts, hnone, Path.same, hab, hab.symm]

theorem mem_enumerate_iff (h : d.Below a b home names) : names.foldl Path.join a ∈ d.enumerate a [] ↔
    Listing.Lists d [] a (names.dropLast.foldl Path.join a) := by
  obtain ⟨n, hn⟩ := h.split_names
  have hjoin : names.foldl Path.join a = (names.dropLast.foldl Path.join a).join n := by
    conv_lhs => rw [hn]
    simp
  rw [Listing.mem_enumerate h.tree h.folder h.isFolder]
  constructor
  · rintro ⟨f, folder, m, hlists, hf, hm, heq, -⟩
    obtain ⟨level, l, waiting, hstage, -⟩ := id hlists
    obtain ⟨rel, rfl, -, hplain⟩ := ((hstage.queued h.tree h.folder h.isFolder).1 f List.mem_cons_self).plain h.tree
    have hrel : ∀ m' ∈ rel ++ [m], m'.IsPlain := by
      simpa [or_imp, forall_and] using ⟨hplain, h.tree.plain_of_mem_names hm⟩
    have hnames : names = rel ++ [m] := Path.foldl_join_inj h.plain hrel (by simpa using heq)
    rw [hnames, List.dropLast_concat]
    exact hlists
  · intro hlists
    obtain ⟨hstat, -⟩ := h.stat_front List.prefix_rfl
    refine ⟨_, _, n, hlists, hstat, ?_, hjoin, isFile_iff.mpr ⟨_, h.stat_joined, h.isFile⟩, rfl⟩
    rw [mem_names_iff, List.append_assoc, ← hn]
    exact isSome_of_isFile h.isFile

/-- If a folder on the way down has its turn, then it is listed, unless another way to it is as short. -/
theorem lists_of_turn (h : d.Below a b home names) (hforemost : d.Foremost home names)
    (hfront : front <+: names.dropLast) {l : Listing} {waiting : List Path}
    (hturn : Listing.Stage d [] a front.length l (front.foldl Path.join a :: waiting)) :
    Listing.Lists d [] a (front.foldl Path.join a) := by
  by_cases hkey : Listing.key d (front.foldl Path.join a) ∈ l.listed
  · obtain ⟨g, hg, hlists, earlier, hle, -, rel, place, hrel, hlen, hstat, hplace, hpassage⟩ :=
      hturn.lists_of_listed h.tree h.folder h.isFolder hkey
    obtain ⟨hstat', hfolder⟩ := h.stat_front hfront
    obtain rfl := Listing.key_inj h.tree hstat hplace hstat' hfolder hg
    rw [hforemost front rel hfront hpassage (hlen ▸ hle)] at hrel
    rwa [← hrel]
  · exact ⟨_, l, waiting, hturn, hkey⟩

theorem lists_front (h : d.Below a b home names) (hforemost : d.Foremost home names)
    (hfront : front <+: names.dropLast) : Listing.Lists d [] a (front.foldl Path.join a) := by
  induction front using List.reverseRecOn with
  | nil => exact ⟨0, {}, [], .start, by simp⟩
  | append_singleton front m ih =>
    have habove := (List.prefix_append front [m]).trans hfront
    have hplain : ∀ n ∈ front, n.IsPlain := fun n hn =>
      h.plain n (List.dropLast_subset names (habove.subset hn))
    obtain ⟨level, l, waiting, hstage, hkey⟩ := ih habove
    obtain ⟨rel, hrel, rfl, hrelplain⟩ :=
      ((hstage.queued h.tree h.folder h.isFolder).1 _ List.mem_cons_self).plain h.tree
    obtain rfl := Path.foldl_join_inj hplain hrelplain hrel
    obtain ⟨hstat, hfolder⟩ := h.stat_front habove
    obtain ⟨hbelow, hbelowFolder⟩ := h.stat_front hfront
    have hm : m ∈ d.names (home ++ front) := by
      rw [mem_names_iff, List.append_assoc]
      exact isSome_of_isFolderAt hbelowFolder
    have hfound : (front.foldl Path.join a).join m ∈
        (Listing.addFolder d [] l (front.foldl Path.join a)).folders := by
      rw [Listing.addFolder_fresh hkey (list_of_stat hstat hfolder)]
      refine List.mem_append_right _ (Listing.mem_foldersIn.mpr ⟨m, hm, rfl, ?_⟩)
      exact isFolder_iff.mpr ⟨_, by simpa using hbelow, hbelowFolder⟩
    obtain ⟨l', rest, hturn⟩ := hstage.list.turn_below hfound
    exact h.lists_of_turn hforemost hfront (by simpa using hturn)

end Below

/-- A file inside a folder conflicts with it, either way round, just when the folder that holds the file is
listed on the plain way down; that it is if no other way to a folder on the way down is as short. -/
theorem conflicts_below (h : d.Below a b home names) :
    (d.conflicts a b = true ↔ Listing.Lists d [] a (names.dropLast.foldl Path.join a)) ∧
      (d.conflicts b a = true ↔ Listing.Lists d [] a (names.dropLast.foldl Path.join a)) ∧
      (d.Foremost home names → d.conflicts a b = true ∧ d.conflicts b a = true) := by
  have hboth := h.conflicts_iff
  rw [h.mem_enumerate_iff] at hboth
  refine ⟨hboth.1, hboth.2, fun hforemost => ?_⟩
  have hlists := h.lists_front hforemost List.prefix_rfl
  exact ⟨hboth.1.mpr hlists, hboth.2.mpr hlists⟩

def looped : Disk :=
  { items := [([['a']], .folder 0o755), ([['a'], ['l']], .leaf 1), ([['a'], ['x']], .folder 0o755),
      ([['a'], ['x'], ['f']], .leaf 0), ([['a'], ['x'], ['u']], .leaf 2)]
    nodes := [(1, .link "x/u".toList), (2, .link "..".toList)]
    cwd := [] }

theorem looped_foremost : looped.Foremost [['a']] [['x'], ['f']] := by
  intro front rel hfront hpassage hlen
  rcases List.prefix_concat_iff.mp (show front <+: [] ++ [['x']] from hfront) with rfl | hnil
  · rcases List.eq_nil_or_concat rel with rfl | ⟨init, n, rfl⟩
    · cases Passage.nil_iff.mp hpassage
    · rw [List.concat_eq_append] at hpassage hlen ⊢
      obtain rfl : init = [] := List.eq_nil_of_length_eq_zero (by simpa using hlen)
      obtain ⟨folder, hstart, hleads, -⟩ := Passage.concat_iff.mp hpassage
      obtain rfl := Passage.nil_iff.mp hstart
      -- Of the two names in `a` only `x` leads there.
      have hn : n = ['l'] ∨ n = ['x'] := by
        have hnames : looped.names [['a']] = [['l'], ['x']] := by decide +kernel
        simpa [hnames] using hleads.mem_names
      rcases hn with rfl | rfl
      · have hback : looped.Leads [['a']] ['l'] [['a']] := ⟨linkLimit, walk_found.mp (by decide +kernel)⟩
        cases hleads.unique hback
      · rfl
  · obtain rfl := List.prefix_nil.mp hnil
    exact List.eq_nil_of_length_eq_zero (Nat.le_zero.mp hlen)

theorem looped_conflicts : looped.Below ['a'] "a//x/f".toList [['a']] [['x'], ['f']] ∧
    looped.Foremost [['a']] [['x'], ['f']] ∧
    looped.conflicts ['a'] "a//x/f".toList = true ∧ looped.conflicts "a//x/f".toList ['a'] = true := by
  have h : looped.Below ['a'] "a//x/f".toList [['a']] [['x'], ['f']] :=
    ⟨.of_items (by decide +kernel), by decide +kernel, by decide +kernel, by decide, by decide +kernel,
      by decide +kernel, by decide +kernel, by decide +kernel⟩
  obtain ⟨-, -, hboth⟩ := conflicts_below h
  exact ⟨h, looped_foremost, hboth looped_foremost⟩

def detour : Disk :=
  { items := [([['a']], .folder 0o755), ([['a'], ['x']], .folder 0o755), ([['a'], ['x'], ['y']], .folder 0o755),
      ([['a'], ['x'], ['y'], ['f']], .leaf 0), ([['a'], ['l']], .leaf 1)]
    nodes := [(1, .link "x/y".toList)]
    cwd := [] }

/-- Through the link the folder is reached one level earlier, so the file is listed as `a/l/f` only. -/
theorem conflicts_misses_detour : detour.Below ['a'] "a/x/y/f".toList [['a']] [['x'], ['y'], ['f']] ∧
    detour.conflicts ['a'] "a/x/y/f".toList = false ∧ detour.conflicts "a/x/y/f".toList ['a'] = false :=
  ⟨⟨.of_items (by decide +kernel), by decide +kernel, by decide +kernel, by decide, by decide +kernel,
    by decide +kernel, by decide +kernel, by decide +kernel⟩, by decide +kernel, by decide +kernel⟩

end Disk

end SafeFiles
