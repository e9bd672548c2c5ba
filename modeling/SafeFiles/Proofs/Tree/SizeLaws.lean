import Mathlib.Algebra.GroupWithZero.Nat
import Mathlib.Algebra.Order.BigOperators.Group.List
import Mathlib.Algebra.Order.Group.Nat
import SafeFiles.Proofs.Tree.BreadthLaws
import SafeFiles.Tree.Size

/-!
# Sizes and listings

The size walk goes down every way to a folder that does not come back to where it
came through, and the listing takes each folder once, on a shortest way. `Enters`
gives the folders of the walk without any bound on its depth. A folder is listed on
a way through folders that were all listed before it, so none of them is the folder
itself and the walk goes that way too (`Tally.entered`): the size counts all that
the listing reports.
-/

namespace SafeFiles

namespace Disk

-- ---------------------------------------------------------------------------
-- The walk
-- ---------------------------------------------------------------------------

def fileLength (d : Disk) (p : Path) : Nat :=
  match d.stat p with
  | .error _ => 0
  | .ok place => if (d.node? place).any Node.isFile then d.sizeAt place else 0

def lengthIn (d : Disk) (f : Path) : Nat :=
  match d.list f with
  | .error _ => 0
  | .ok (_, names) => (names.map fun n => d.fileLength (f.join n)).sum

def way? (d : Disk) (above : List Place) (folder : Place) (f : Path) (n : Name) : Option Place :=
  match d.stat (f.join n) with
  | .error _ => none
  | .ok place =>
    if d.isFolderAt place && !(d.isLinkAt (folder ++ [n]) && above.contains place) then some place else none

/-- The walk from `root` enters `f`, and `above` holds the places of `f` and of those it was entered through. -/
inductive Enters (d : Disk) (root : Path) : List Place → Path → Prop
  | start {home} : d.stat root = .ok home → d.isFolderAt home → Enters d root [home] root
  | enter {above f folder names n place} : Enters d root above f → d.list f = .ok (folder, names) → n ∈ names →
      d.way? above folder f n = some place → Enters d root (place :: above) (f.join n)

/-- No link that the walk meets leads to a folder. -/
def Straight (d : Disk) (root : Path) : Prop :=
  ∀ above f folder names n, d.Enters root above f → d.list f = .ok (folder, names) → n ∈ names →
    d.isLinkAt (folder ++ [n]) = true → d.isFolder (f.join n) = false

/-- The folders that the walk enters from `f` on, so many levels at most. -/
def entered (d : Disk) : Nat → List Place → Path → List Path
  | 0, _, _ => []
  | depth + 1, above, f =>
    match d.list f with
    | .error _ => []
    | .ok (folder, names) => f :: names.flatMap fun n =>
      match d.way? above folder f n with
      | none => []
      | some place => entered d depth (place :: above) (f.join n)

variable {d : Disk} {root f g p : Path} {above : List Place} {home folder place : Place} {names : List Name} {n : Name}
  {depth : Nat}

theorem way?_eq_some : d.way? above folder f n = some place ↔ d.stat (f.join n) = .ok place ∧
    d.isFolderAt place = true ∧ (d.isLinkAt (folder ++ [n]) = true → place ∉ above) := by
  unfold way?
  cases d.stat (f.join n) with
  | error => simp
  | ok q =>
    simp only [Option.ite_none_right_eq_some, Option.some.injEq, Except.ok.injEq, Bool.and_eq_true,
      Bool.not_eq_true', Bool.and_eq_false_imp, List.contains_eq_mem, decide_eq_false_iff_not]
    constructor
    · rintro ⟨⟨hfolder, hloop⟩, rfl⟩
      exact ⟨rfl, hfolder, hloop⟩
    · rintro ⟨rfl, hfolder, hloop⟩
      exact ⟨⟨hfolder, hloop⟩, rfl⟩

theorem fileLength_of_not_isFile (h : d.isFile p = false) : d.fileLength p = 0 := by
  unfold isFile at h
  unfold fileLength
  cases hstat : d.stat p with
  | error => rfl
  | ok place =>
    rw [hstat] at h
    simp [h]

theorem size_of_isFile (h : d.isFile p = true) : d.size p = .ok (d.fileLength p) := by
  obtain ⟨place, hstat, hfile⟩ := isFile_iff.mp h
  simp [size, fileLength, hstat, hfile, Except.map]

theorem Enters.isFolder (h : d.Enters root above f) : ∃ folder, d.stat f = .ok folder ∧ d.isFolderAt folder := by
  cases h with
  | start hroot hhome => exact ⟨_, hroot, hhome⟩
  | enter _ _ _ hway =>
    obtain ⟨hstat, hfolder, -⟩ := way?_eq_some.mp hway
    exact ⟨_, hstat, hfolder⟩

-- ---------------------------------------------------------------------------
-- The folders that are entered
-- ---------------------------------------------------------------------------

theorem entered_succ (hlist : d.list f = .ok (folder, names)) : d.entered (depth + 1) above f =
    f :: names.flatMap fun n =>
      (d.way? above folder f n).elim [] fun place => d.entered depth (place :: above) (f.join n) := by
  simp only [entered, hlist]
  congr
  funext n
  cases d.way? above folder f n <;> rfl

theorem sizeWithin_succ (hlist : d.list f = .ok (folder, names)) : d.sizeWithin (depth + 1) above f =
    (names.map fun n => d.fileLength (f.join n) +
      (d.way? above folder f n).elim 0 fun place => d.sizeWithin depth (place :: above) (f.join n)).sum := by
  simp only [sizeWithin, hlist, fileLength, way?, List.sum_eq_foldr]
  congr 2
  funext n
  cases d.stat (f.join n) with
  | error => rfl
  | ok place =>
    by_cases hfolder : d.isFolderAt place = true
    · obtain ⟨mode, hi⟩ := isFolderAt_iff.mp hfolder
      by_cases hmem : place ∈ above <;> cases d.isLinkAt (folder ++ [n]) <;> simp [hfolder, hmem, node?, hi]
    · simp [hfolder]

/-- The size is what the folders that are entered hold. -/
theorem sizeWithin_eq (d : Disk) (depth : Nat) (above : List Place) (f : Path) :
    d.sizeWithin depth above f = ((d.entered depth above f).map d.lengthIn).sum := by
  induction depth generalizing above f with
  | zero => rfl
  | succ depth ih =>
    cases hlist : d.list f with
    | error => simp [sizeWithin, entered, hlist]
    | ok listed =>
      obtain ⟨folder, names⟩ := listed
      rw [entered_succ hlist, sizeWithin_succ hlist, List.sum_map_add, List.map_cons, List.sum_cons, List.map_flatMap,
        List.flatMap_def, List.sum_flatten, List.map_map]
      congr 1
      · simp [lengthIn, hlist]
      · refine congrArg List.sum (List.map_congr_left fun n _ => ?_)
        cases hway : d.way? above folder f n <;> simp [hway, ih]

theorem Enters.of_mem_entered (h : d.Enters root above f) (hg : g ∈ d.entered depth above f) :
    ∃ through, d.Enters root through g := by
  induction depth generalizing above f with
  | zero => cases hg
  | succ depth ih =>
    obtain ⟨folder, hf, hfolder⟩ := h.isFolder
    have hlist := list_of_stat hf hfolder
    rw [entered_succ hlist] at hg
    rcases List.mem_cons.mp hg with rfl | hg
    · exact ⟨above, h⟩
    · obtain ⟨n, hn, hg⟩ := List.mem_flatMap.mp hg
      cases hway : d.way? above folder f n with
      | none => simp [hway] at hg
      | some place => exact ih (h.enter hlist hn hway) (by simpa [hway] using hg)

/-- The depth is never used up: a path grows with every level, and one that is too long leads nowhere. -/
theorem Enters.exists_depth (hd : d.WellFormed) (hroot : d.stat root = .ok home) (h : d.Enters root above f) :
    ∃ depth, pathLimit ≤ Text.utf8Size f + depth ∧ d.entered depth above f ⊆ d.entered pathLimit [home] root := by
  induction h with
  | start hstat _ =>
    obtain rfl := Except.ok.inj (hroot.symm.trans hstat)
    exact ⟨pathLimit, Nat.le_add_left _ _, List.Subset.refl _⟩
  | @enter above f folder names n place hfront hlist hn hway ih =>
    obtain ⟨depth, hdepth, hsub⟩ := ih
    obtain ⟨folder', hf, hfolder⟩ := hfront.isFolder
    have hlen := (checkPath_ok (seek_ok.mp hf).1).2.2
    obtain ⟨depth, rfl⟩ := Nat.exists_eq_succ_of_ne_zero (show depth ≠ 0 by omega)
    obtain ⟨-, -, rfl⟩ := list_eq_ok.mp hlist
    have hplain := hd.plain_of_mem_names hn
    have hgrows : Text.utf8Size f + [n].length ≤ Text.utf8Size ([n].foldl Path.join f) :=
      Path.length_le_utf8Size_foldl_join f (by simpa using hplain)
    rw [List.length_singleton, List.foldl_cons, List.foldl_nil] at hgrows
    refine ⟨depth, by omega, fun g hg => hsub ?_⟩
    rw [entered_succ hlist]
    exact List.mem_cons_of_mem _ (List.mem_flatMap.mpr ⟨n, hn, by simpa [hway] using hg⟩)

theorem mem_entered (hd : d.WellFormed) (hroot : d.stat root = .ok home) (hhome : d.isFolderAt home) :
    f ∈ d.entered pathLimit [home] root ↔ ∃ above, d.Enters root above f := by
  refine ⟨(Enters.start hroot hhome).of_mem_entered, fun ⟨above, h⟩ => ?_⟩
  obtain ⟨depth, hdepth, hsub⟩ := h.exists_depth hd hroot
  obtain ⟨folder, hf, hfolder⟩ := h.isFolder
  have hlen := (checkPath_ok (seek_ok.mp hf).1).2.2
  obtain ⟨depth, rfl⟩ := Nat.exists_eq_succ_of_ne_zero (show depth ≠ 0 by omega)
  exact hsub (by simp [entered_succ (list_of_stat hf hfolder)])

theorem spelled_of_mem_entered (hd : d.WellFormed) (hg : g ∈ d.entered depth above f) :
    ∃ rel : List Name, g = rel.foldl Path.join f ∧ ∀ n ∈ rel, n.IsPlain := by
  induction depth generalizing above f with
  | zero => cases hg
  | succ depth ih =>
    cases hlist : d.list f with
    | error => simp [entered, hlist] at hg
    | ok listed =>
      obtain ⟨folder, names⟩ := listed
      rw [entered_succ hlist] at hg
      rcases List.mem_cons.mp hg with rfl | hg
      · exact ⟨[], rfl, by simp⟩
      · obtain ⟨n, hn, hg⟩ := List.mem_flatMap.mp hg
        cases hway : d.way? above folder f n with
        | none => simp [hway] at hg
        | some place =>
          have hbelow : g ∈ d.entered depth (place :: above) (f.join n) := by simpa [hway] using hg
          obtain ⟨rel, rfl, hplain⟩ := ih hbelow
          obtain ⟨-, -, rfl⟩ := list_eq_ok.mp hlist
          exact ⟨n :: rel, rfl, by simpa using ⟨hd.plain_of_mem_names hn, hplain⟩⟩

theorem nodup_entered (hd : d.WellFormed) (depth : Nat) (above : List Place) (f : Path) :
    (d.entered depth above f).Nodup := by
  induction depth generalizing above f with
  | zero => exact List.nodup_nil
  | succ depth ih =>
    cases hlist : d.list f with
    | error => simp [entered, hlist]
    | ok listed =>
      obtain ⟨folder, names⟩ := listed
      obtain ⟨-, -, rfl⟩ := list_eq_ok.mp hlist
      have hspelled {n g} (hn : n ∈ d.names folder)
          (hg : g ∈ (d.way? above folder f n).elim [] fun place => d.entered depth (place :: above) (f.join n)) :
          ∃ rel : List Name, g = (n :: rel).foldl Path.join f ∧ ∀ m ∈ n :: rel, m.IsPlain := by
        cases hway : d.way? above folder f n with
        | none => simp [hway] at hg
        | some place =>
          obtain ⟨rel, rfl, hplain⟩ := spelled_of_mem_entered hd (by simpa [hway] using hg)
          exact ⟨rel, rfl, by simpa using ⟨hd.plain_of_mem_names hn, hplain⟩⟩
      rw [entered_succ hlist, List.nodup_cons, List.nodup_flatMap]
      refine ⟨fun hmem => ?_, fun n _ => ?_, (nodup_names d folder).imp_of_mem fun {n m} hn hm hne g hg hg' => ?_⟩
      · obtain ⟨n, hn, hg⟩ := List.mem_flatMap.mp hmem
        obtain ⟨rel, heq, hplain⟩ := hspelled hn hg
        have hnil : [] = n :: rel := Path.foldl_join_inj (by simp) hplain heq
        cases hnil
      · cases d.way? above folder f n with
        | none => exact List.nodup_nil
        | some place => exact ih (place :: above) (f.join n)
      · obtain ⟨rel, rfl, hplain⟩ := hspelled hn hg
        obtain ⟨rel', heq, hplain'⟩ := hspelled hm hg'
        exact hne (List.cons.inj (Path.foldl_join_inj hplain hplain' heq)).1

-- ---------------------------------------------------------------------------
-- Trees without links to folders
-- ---------------------------------------------------------------------------

theorem Leads.eq_of_not_link (h : d.Leads folder n place) (hlink : d.isLinkAt (folder ++ [n]) = false) :
    place = folder ++ [n] := by
  obtain ⟨links, h⟩ := h
  cases h with
  | folder _ _ _ hrest => cases hrest; rfl
  | link _ _ hi hl _ _ => simp [isLinkAt, node?, hi, hl, Node.isLink] at hlink
  | leaf _ _ _ => rfl

theorem Enters.straight (hd : d.WellFormed) (hs : d.Straight root) (hroot : d.stat root = .ok home)
    (h : d.Enters root above f) : ∃ rel : List Name, f = rel.foldl Path.join root ∧ d.stat f = .ok (home ++ rel) ∧
      d.isFolderAt (home ++ rel) := by
  induction h with
  | start hstat hhome =>
    obtain rfl := Except.ok.inj (hroot.symm.trans hstat)
    exact ⟨[], rfl, by simpa using hroot, by simpa using hhome⟩
  | @enter above f folder names n place hfront hlist hn hway ih =>
    obtain ⟨hstat, hplace, -⟩ := way?_eq_some.mp hway
    obtain ⟨hf, -, rfl⟩ := list_eq_ok.mp hlist
    obtain ⟨rel, rfl, hrel, -⟩ := ih
    obtain rfl := Except.ok.inj (hf.symm.trans hrel)
    have hlink : d.isLinkAt (home ++ rel ++ [n]) = false := by
      by_contra hlink
      have hnone := hs above _ _ _ n hfront hlist hn (by simpa using hlink)
      rw [isFolder_iff.mpr ⟨place, hstat, hplace⟩] at hnone
      cases hnone
    obtain rfl := (leads_of_stat_join hf (hd.plain_of_mem_names hn) hstat).eq_of_not_link hlink
    exact ⟨rel ++ [n], by simp, by simpa using hstat, by simpa using hplace⟩

theorem Enters.eq_of_key (hd : d.WellFormed) (hs : d.Straight root) {through : List Place}
    (hroot : d.stat root = .ok home) (hf : d.Enters root above f) (hg : d.Enters root through g)
    (h : Listing.key d f = Listing.key d g) : f = g := by
  obtain ⟨rel, rfl, hstat, hfolder⟩ := hf.straight hd hs hroot
  obtain ⟨rel', rfl, hstat', hfolder'⟩ := hg.straight hd hs hroot
  rw [List.append_cancel_left (Listing.key_inj hd hstat hfolder hstat' hfolder' h)]

end Disk

namespace Listing

variable {d : Disk} {root f g : Path} {home folder place : Place} {names : List Name} {n : Name} {l : Listing}
  {level : Nat} {listed waiting queue : List Path}

-- ---------------------------------------------------------------------------
-- What is listed, and what it comes to
-- ---------------------------------------------------------------------------

theorem lengthIn_eq (hlist : d.list f = .ok (folder, names)) :
    d.lengthIn f = (((filesIn d [] f names).map f.join).map d.fileLength).sum := by
  simp only [Disk.lengthIn, hlist, filesIn]
  clear hlist
  induction names with
  | nil => rfl
  | cons n names ih =>
    cases hfile : d.isFile (f.join n) with
    | false => simp [hfile, Disk.fileLength_of_not_isFile hfile, ih]
    | true => simp [hfile, accepts, ih]

/-- The root, or a name in a folder that has been listed. -/
def Found (d : Disk) (root : Path) (listed : List Path) (f : Path) : Prop :=
  f = root ∨ ∃ g ∈ listed, ∃ folder names n, d.list g = .ok (folder, names) ∧ n ∈ names ∧ f = g.join n

/-- The paths of the folders that have been listed, and how they have been come by. -/
structure Tally (d : Disk) (root : Path) (listed : List Path) (l : Listing) (queue : List Path) : Prop where
  keys : l.listed = listed.map (key d)
  distinct : listed.Nodup
  lengths : (l.files.map d.fileLength).sum = (listed.map d.lengthIn).sum
  /-- The size walk enters them as well, through folders that are listed. -/
  entered : ∀ f ∈ listed, ∃ above, d.Enters root above f ∧ ∀ place ∈ above, place.path ∈ l.listed
  found : ∀ f ∈ queue, Found d root listed f
  closed : ∀ f, Found d root listed f → d.isFolder f = true → f ∈ queue ∨ key d f ∈ l.listed

theorem Found.mono {listed' : List Path} (h : Found d root listed f) (hsub : listed ⊆ listed') :
    Found d root listed' f := by
  rcases h with rfl | ⟨g, hg, hfound⟩
  · exact .inl rfl
  · exact .inr ⟨g, hsub hg, hfound⟩

theorem Tally.skip (h : Tally d root listed l (f :: queue)) (hold : key d f ∈ l.listed) :
    Tally d root listed { l with repeated := l.repeated ++ [f] } queue :=
  { h with
    found := fun g hg => h.found g (List.mem_cons_of_mem f hg)
    closed := fun g hg hfolder => by
      rcases h.closed g hg hfolder with hwaits | hkey
      · rcases List.mem_cons.mp hwaits with rfl | hwaits
        · exact .inr hold
        · exact .inl hwaits
      · exact .inr hkey }

/-- None of the folders on the way to a new folder is that folder, so the size walk goes the same way. -/
theorem Tally.enters (h : Tally d root listed l (f :: queue)) (hf : d.stat f = .ok folder)
    (hfolder : d.isFolderAt folder) (hnew : folder.path ∉ l.listed) :
    ∃ above, d.Enters root above f ∧ ∀ place ∈ above, place.path ∈ l.listed ++ [folder.path] := by
  rcases h.found f List.mem_cons_self with rfl | ⟨g, hg, home, names, n, hlist, hn, rfl⟩
  · exact ⟨[folder], .start hf hfolder, by simp⟩
  · obtain ⟨above, henters, habove⟩ := h.entered g hg
    refine ⟨folder :: above, henters.enter hlist hn (Disk.way?_eq_some.mpr ⟨hf, hfolder, fun _ hmem => ?_⟩), ?_⟩
    · exact hnew (habove folder hmem)
    · rintro place hplace
      rcases List.mem_cons.mp hplace with rfl | hplace
      · simp
      · exact List.mem_append_left _ (habove place hplace)

theorem Tally.add (h : Tally d root listed l (f :: queue)) (hf : d.stat f = .ok folder)
    (hfolder : d.isFolderAt folder) (hkey : key d f = folder.path) (hnew : key d f ∉ l.listed) :
    Tally d root (listed ++ [f]) { l with
      listed := l.listed ++ [key d f]
      folders := l.folders ++ foldersIn d f (d.names folder)
      files := l.files ++ (filesIn d [] f (d.names folder)).map f.join }
      (queue ++ foldersIn d f (d.names folder)) := by
  have hlist := Disk.list_of_stat hf hfolder
  constructor
  case keys => simp [h.keys]
  case distinct =>
    refine List.nodup_append.mpr ⟨h.distinct, by simp, ?_⟩
    rintro g hg _ hmem rfl
    obtain rfl := List.mem_singleton.mp hmem
    exact hnew (h.keys ▸ List.mem_map_of_mem hg)
  case lengths => simp [h.lengths, lengthIn_eq hlist]
  case entered =>
    intro g hg
    rcases List.mem_append.mp hg with hg | hg
    · obtain ⟨above, henters, habove⟩ := h.entered g hg
      exact ⟨above, henters, fun place hplace => List.mem_append_left _ (habove place hplace)⟩
    · obtain rfl := List.mem_singleton.mp hg
      rw [hkey] at hnew ⊢
      exact h.enters hf hfolder hnew
  case found =>
    intro g hg
    rcases List.mem_append.mp hg with hg | hg
    · exact (h.found g (List.mem_cons_of_mem f hg)).mono (List.subset_append_left _ _)
    · obtain ⟨n, hn, rfl, -⟩ := mem_foldersIn.mp hg
      exact .inr ⟨f, by simp, folder, _, n, hlist, hn, rfl⟩
  case closed =>
    intro g hg hgfolder
    have hkeep (hg : Found d root listed g) :
        g ∈ queue ++ foldersIn d f (d.names folder) ∨ key d g ∈ l.listed ++ [key d f] := by
      rcases h.closed g hg hgfolder with hwaits | hold
      · rcases List.mem_cons.mp hwaits with rfl | hwaits
        · simp
        · exact .inl (List.mem_append_left _ hwaits)
      · exact .inr (List.mem_append_left _ hold)
    rcases hg with rfl | ⟨g', hmem, home, names, n, hlist', hn, rfl⟩
    · exact hkeep (.inl rfl)
    · rcases List.mem_append.mp hmem with hmem | hmem
      · exact hkeep (.inr ⟨g', hmem, home, names, n, hlist', hn, rfl⟩)
      · obtain rfl := List.mem_singleton.mp hmem
        cases hlist.symm.trans hlist'
        exact .inl (List.mem_append_right _ (mem_foldersIn.mpr ⟨n, hn, rfl, hgfolder⟩))

theorem Stage.tally (hd : d.WellFormed) (hroot : d.stat root = .ok home) (hhome : d.isFolderAt home)
    (hlimits : ∀ p, Formed d [] root p → d.WithinLimits p) (h : Stage d [] root level l waiting) :
    ∃ listed, Tally d root listed l (waiting ++ l.folders) := by
  induction h with
  | start => exact ⟨[], rfl, List.nodup_nil, rfl, by simp, by simp [Found], by simp [Found]⟩
  | @list level l f waiting hstage ih =>
    obtain ⟨listed, htally⟩ := ih
    have hqueued := (hstage.queued hd hroot hhome).1 f List.mem_cons_self
    obtain ⟨-, folder, hf, hfolder, -, ⟨hold, heq⟩ | ⟨hnew, heq⟩⟩ := hqueued.addFolder_cases l
    · rw [heq]
      exact ⟨listed, htally.skip hold⟩
    · have hkey := key_of_stat hf ((hlimits f hqueued.1).path_lt hf hfolder)
      rw [heq]
      exact ⟨_, by simpa using htally.add hf hfolder hkey hnew⟩
  | descend _ _ ih =>
    obtain ⟨listed, htally⟩ := ih
    exact ⟨listed, by simpa using { htally with }⟩

theorem Tally.mem_of_enters (hd : d.WellFormed) (hs : d.Straight root) (hroot : d.stat root = .ok home)
    (h : Tally d root listed l []) {above : List Place} (hf : d.Enters root above f) : f ∈ listed := by
  have hmem {above f} (hf : d.Enters root above f) (hfound : Found d root listed f) : f ∈ listed := by
    have hkey := (h.closed f hfound (Disk.isFolder_iff.mpr hf.isFolder)).resolve_left (by simp)
    rw [h.keys] at hkey
    obtain ⟨g, hg, heq⟩ := List.mem_map.mp hkey
    obtain ⟨through, henters, -⟩ := h.entered g hg
    rwa [← henters.eq_of_key hd hs hroot hf heq]
  induction hf with
  | start hstat hhome => exact hmem (.start hstat hhome) (.inl rfl)
  | enter hfront hlist hn hway ih => exact hmem (hfront.enter hlist hn hway) (.inr ⟨_, ih, _, _, _, hlist, hn, rfl⟩)

end Listing

namespace Disk

variable {d : Disk} {root : Path} {home : Place}

/-- The size walk comes to an end, having entered each of its folders once, and it counts all files that are
listed, and no more unless a link leads to a folder. -/
theorem totalSize_enumerate (hd : d.WellFormed) (hroot : d.stat root = .ok home) (hhome : d.isFolderAt home) :
    (∃ folders : List Path, folders.Nodup ∧ (∀ f, f ∈ folders ↔ ∃ above, d.Enters root above f) ∧
      d.totalSize root = (folders.map d.lengthIn).sum) ∧
    ((∀ p, Listing.Formed d [] root p → d.WithinLimits p) → ∃ lengths : List Nat,
      (d.enumerate root []).map d.size = lengths.map .ok ∧ lengths.sum ≤ d.totalSize root ∧
        (d.Straight root → lengths.sum = d.totalSize root)) := by
  have hsize : d.totalSize root = ((d.entered pathLimit [home] root).map d.lengthIn).sum := by
    rw [totalSize, hroot, ← sizeWithin_eq]
    exact if_pos hhome
  have hnodup := nodup_entered hd pathLimit [home] root
  refine ⟨⟨_, hnodup, fun f => mem_entered hd hroot hhome, hsize⟩, fun hlimits => ?_⟩
  obtain ⟨hend, level, hlast⟩ := Listing.exists_last_stage [] hd hroot hhome
  obtain ⟨listed, htally⟩ := hlast.tally hd hroot hhome hlimits
  rw [hend, List.append_nil] at htally
  have hsub : listed ⊆ d.entered pathLimit [home] root := fun f hf => by
    obtain ⟨above, henters, -⟩ := htally.entered f hf
    exact (mem_entered hd hroot hhome).mpr ⟨above, henters⟩
  refine ⟨(d.enumerate root []).map d.fileLength, ?_, ?_, fun hs => ?_⟩
  · rw [List.map_map]
    refine List.map_congr_left fun p hp => ?_
    obtain ⟨f, folder, n, -, -, -, -, hfile, -⟩ := (Listing.mem_enumerate hd hroot hhome).mp hp
    exact size_of_isFile hfile
  · rw [enumerate, htally.lengths, hsize]
    obtain ⟨sub, hperm, hsublist⟩ := List.subperm_of_subset htally.distinct hsub
    rw [← (hperm.map d.lengthIn).sum_eq]
    exact (hsublist.map d.lengthIn).sum_le_sum fun _ _ => Nat.zero_le _
  · rw [enumerate, htally.lengths, hsize]
    refine (List.Perm.map d.lengthIn ?_).sum_eq
    refine (List.perm_ext_iff_of_nodup htally.distinct hnodup).mpr fun f => ⟨fun hf => hsub hf, fun hf => ?_⟩
    obtain ⟨above, henters⟩ := (mem_entered hd hroot hhome).mp hf
    exact htally.mem_of_enters hd hs hroot henters

def mirrored : Disk :=
  { items := [([['a']], .folder 0o755), ([['a'], ['x']], .folder 0o755), ([['a'], ['x'], ['f']], .leaf 0),
      ([['a'], ['x'], ['g']], .leaf 1), ([['a'], ['x'], ['h']], .leaf 2), ([['a'], ['l']], .leaf 3)]
    nodes := [(0, .file 0o644 [1, 2, 3]), (1, .link ['f']), (2, .link ['n']), (3, .link ['x'])]
    cwd := [] }

/-- The link to the folder is gone through a second time for the size only; below `x` nothing is. -/
theorem totalSize_enumerate_mirrored :
    mirrored.enumerate ['a'] [] = ["a/x/f".toList, "a/x/g".toList] ∧ mirrored.totalSize ['a'] = 12 ∧
    (∃ lengths : List Nat, (mirrored.enumerate ['a'] []).map mirrored.size = lengths.map .ok ∧
      lengths.sum ≤ mirrored.totalSize ['a']) ∧
    mirrored.Straight "a/x".toList ∧
    ∃ lengths : List Nat, (mirrored.enumerate "a/x".toList []).map mirrored.size = lengths.map .ok ∧
      lengths.sum = mirrored.totalSize "a/x".toList := by
  have hd : mirrored.WellFormed := .of_items (by decide +kernel)
  have hroot : mirrored.stat ['a'] = .ok [['a']] := by decide +kernel
  have hhome : mirrored.isFolderAt [['a']] := by decide +kernel
  have hinner : mirrored.stat "a/x".toList = .ok [['a'], ['x']] := by decide +kernel
  have hbelow : mirrored.isFolderAt [['a'], ['x']] := by decide +kernel
  have hstraight : mirrored.Straight "a/x".toList := by
    intro above f folder names n henters hlist hn hlink
    have hentered : mirrored.entered pathLimit [[['a'], ['x']]] "a/x".toList = ["a/x".toList] := by decide +kernel
    have hf := (mem_entered hd hinner hbelow).mpr ⟨above, henters⟩
    rw [hentered, List.mem_singleton] at hf
    subst hf
    have hnames : mirrored.list "a/x".toList = .ok ([['a'], ['x']], [['f'], ['g'], ['h']]) := by decide +kernel
    cases hnames.symm.trans hlist
    have hnone : ∀ n ∈ [['f'], ['g'], ['h']], mirrored.isFolder (Path.join "a/x".toList n) = false := by
      decide +kernel
    exact hnone n hn
  obtain ⟨-, hall⟩ := totalSize_enumerate hd hroot hhome
  obtain ⟨lengths, hlengths, hle, -⟩ :=
    hall (Listing.withinLimits_of_states 6 (by decide +kernel) (by decide +kernel))
  obtain ⟨-, hsame⟩ := totalSize_enumerate hd hinner hbelow
  obtain ⟨lengths', hlengths', -, heq⟩ :=
    hsame (Listing.withinLimits_of_states 2 (by decide +kernel) (by decide +kernel))
  exact ⟨by decide +kernel, by decide +kernel, ⟨lengths, hlengths, hle⟩, hstraight, lengths', hlengths', heq hstraight⟩

end Disk

end SafeFiles
