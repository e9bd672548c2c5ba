import Mathlib.Data.List.Nodup
import SafeFiles.Proofs.ContainmentLaws
import SafeFiles.Proofs.Path.ParentLaws
import SafeFiles.Tree.Listing

/-!
# Listing a tree

The listing keeps a queue of path texts, and it knows the folders it has listed by
their real places. `Stage` gives its states one at a time. What every state has in
common is in `Queued`, for the paths that wait, and in `Covers`, for what has been
found; in the last state nothing waits, so the places listed are all that can be
reached.
-/

namespace SafeFiles

namespace Disk

-- ---------------------------------------------------------------------------
-- Where entries lead
-- ---------------------------------------------------------------------------

/-- The entry `n` of a folder leads to a place, however many links are on the way. -/
def Leads (d : Disk) (folder : Place) (n : Name) (place : Place) : Prop :=
  ∃ links, d.Route .follow links folder [.down n] place

/-- The names of entries that lead from folder to folder. -/
inductive Passage (d : Disk) (home : Place) : List Name → Place → Prop
  | start : Passage d home [] home
  | enter {rel folder n place} : Passage d home rel folder → d.Leads folder n place → d.isFolderAt place →
      Passage d home (rel ++ [n]) place

def Reachable (d : Disk) (home place : Place) : Prop := ∃ rel, d.Passage home rel place

/-- A path that leads somewhere is short enough and leads there over few enough links, and the real path of
a folder is short enough as well. -/
def WithinLimits (d : Disk) (p : Path) : Prop :=
  ∀ links place, d.Route .follow links (d.start p) p.steps place →
    Text.utf8Size p < pathLimit ∧ d.Route .follow linkLimit (d.start p) p.steps place ∧
      (d.isFolderAt place → Text.utf8Size place.path < pathLimit)

variable {d : Disk} {home folder place q : Place} {n : Name} {rel : List Name} {links links' : Nat}
  {before after : List Step} {p f g root : Path}

theorem WithinLimits.path_lt (h : d.WithinLimits p) (hp : d.stat p = .ok place) (hfolder : d.isFolderAt place) :
    Text.utf8Size place.path < pathLimit :=
  (h _ _ (seek_ok.mp hp).2.1).2.2 hfolder

theorem Leads.unique (h : d.Leads folder n place) (h' : d.Leads folder n q) : place = q := by
  obtain ⟨_, h⟩ := h
  obtain ⟨_, h'⟩ := h'
  exact h.unique h'

theorem Leads.mem_names (h : d.Leads folder n place) : n ∈ d.names folder := by
  obtain ⟨_, h⟩ := h
  rw [mem_names_iff]
  cases h with
  | folder _ _ hi _ => simp [hi]
  | link _ _ hi _ _ _ => simp [hi]
  | leaf _ hi _ => simp [hi]

theorem Route.trans (h : d.Route .follow links home before folder) (hf : d.isFolderAt folder)
    (h' : d.Route .follow links' folder after place) :
    d.Route .follow (links + links') home (before ++ after) place := by
  induction h with
  | done => exact h'.more (Nat.le_add_left _ _)
  | stay _ ih => exact .stay (ih hf h')
  | slash _ ih => exact .slash (ih hf h')
  | up _ ih => exact .up (ih hf h')
  | folder _ hn hi _ ih => exact .folder (fun h => nomatch h) hn hi (ih hf h')
  | link _ hn hi hl _ _ ih =>
    have hrest := ih hf h'
    rw [List.append_assoc] at hrest
    rw [Nat.add_right_comm]
    exact .link (fun h => nomatch h) hn hi hl (fun _ h => nomatch h) hrest
  | leaf _ hi _ => simp [isFolderAt, hi] at hf

theorem Passage.nil_iff : d.Passage home [] place ↔ place = home := by
  constructor
  · generalize hrel : ([] : List Name) = rel
    rintro (_ | ⟨_, _, _⟩)
    · rfl
    · simp at hrel
  · rintro rfl
    exact .start

theorem Passage.concat_iff : d.Passage home (rel ++ [n]) place ↔
    ∃ folder, d.Passage home rel folder ∧ d.Leads folder n place ∧ d.isFolderAt place := by
  constructor
  · generalize hrel : rel ++ [n] = names
    rintro (_ | ⟨hpassage, hleads, hfolder⟩)
    · simp at hrel
    · obtain ⟨rfl, hn⟩ := List.append_inj' hrel rfl
      obtain rfl := List.singleton_injective hn
      exact ⟨_, hpassage, hleads, hfolder⟩
  · rintro ⟨folder, hpassage, hleads, hfolder⟩
    exact .enter hpassage hleads hfolder

theorem Passage.plain (hd : d.WellFormed) (h : d.Passage home rel place) : ∀ n ∈ rel, n.IsPlain := by
  induction h with
  | start => simp
  | enter _ hleads _ ih =>
    intro n hn
    rcases List.mem_append.mp hn with hn | hn
    · exact ih n hn
    · rw [List.mem_singleton.mp hn]
      exact hd.plain_of_mem_names hleads.mem_names

/-- The path is short, its walk does not run out of links, and the real path it gives is short. -/
def fits (d : Disk) (p : Path) : Bool :=
  decide (Text.utf8Size p < pathLimit) && match d.walk .follow linkLimit (d.start p) p.steps with
    | .ok (.found place) => decide (Text.utf8Size place.path < pathLimit)
    | .ok (.free _ _) => true
    | .error e => decide (e ≠ .linkLoop)

theorem WithinLimits.of_fits (h : d.fits p = true) : d.WithinLimits p := by
  rw [fits, Bool.and_eq_true, decide_eq_true_iff] at h
  obtain ⟨hlen, hwalk⟩ := h
  intro links place hroute
  have hmore := walk_found.mpr (hroute.more (Nat.le_max_left links linkLimit))
  rw [walk_more (Nat.le_max_right links linkLimit) fun hloop => by simp [hloop] at hwalk] at hmore
  exact ⟨hlen, walk_found.mp hmore, fun _ => by simpa [hmore] using hwalk⟩

-- ---------------------------------------------------------------------------
-- Paths to what is in a folder
-- ---------------------------------------------------------------------------

theorem stat_bare (h : d.stat p = .ok place) : d.Route .follow linkLimit (d.start p) p.bare place :=
  (seek_ok.mp h).2.1.bare

theorem leads_of_stat_join (hf : d.stat f = .ok folder) (hn : n.IsPlain) (h : d.stat (f.join n) = .ok place) :
    d.Leads folder n place := by
  have hr := (seek_ok.mp h).2.1
  rw [Path.steps_join f hn, start_join d f hn] at hr
  obtain ⟨mid, fewer, -, hmid, hlast, -⟩ := hr.split (by simp)
  obtain rfl := hmid.unique (stat_bare hf)
  exact ⟨fewer, hlast⟩

theorem stat_join_iff (hf : d.stat f = .ok folder) (hfolder : d.isFolderAt folder) (hn : n.IsPlain)
    (hlim : d.WithinLimits (f.join n)) :
    d.stat (f.join n) = .ok place ↔ d.Leads folder n place ∧ (d.item? place).isSome := by
  constructor
  · intro h
    exact ⟨leads_of_stat_join hf hn h, (seek_ok.mp h).2.2⟩
  · rintro ⟨⟨links, hlast⟩, hsome⟩
    have hwhole : d.Route .follow (linkLimit + links) (d.start (f.join n)) (f.join n).steps place := by
      rw [Path.steps_join f hn, start_join d f hn]
      exact (stat_bare hf).trans hfolder hlast
    obtain ⟨hlen, hroute, -⟩ := hlim _ _ hwhole
    obtain ⟨hnul, -, -⟩ := checkPath_ok (seek_ok.mp hf).1
    refine seek_ok.mpr ⟨checkPath_of ?_ (Path.join_ne_nil hn.1) hlen, hroute, hsome⟩
    exact Path.hasNul_join hnul (by simpa [Path.hasNul] using hn.2.2.2.2)

theorem isFile_iff : d.isFile p = true ↔ ∃ place, d.stat p = .ok place ∧ (d.node? place).any Node.isFile := by
  unfold isFile
  cases d.stat p <;> simp

theorem isFolder_of_isFile (h : d.isFile p = true) : d.isFolder p = false := by
  obtain ⟨place, hstat, hfile⟩ := isFile_iff.mp h
  cases hnode : d.node? place with
  | none => simp [hnode] at hfile
  | some node => simp [isFolder, hstat, isFolderAt_of_node? hnode]

-- ---------------------------------------------------------------------------
-- The real folder of a path
-- ---------------------------------------------------------------------------

def standing? (d : Disk) (p : Path) : Option (Place × Name) :=
  match p.parent?, p.fileName? with
  | some parent, some n => ((d.realPlace parent).toOption).map (·, n)
  | _, _ => none

theorem realPlace_of_stat (hf : d.stat f = .ok folder) (hlen : Text.utf8Size folder.path < pathLimit) :
    d.realPlace f = .ok folder := by
  obtain ⟨hc, hroute, -⟩ := seek_ok.mp hf
  obtain ⟨hnul, hne, -⟩ := checkPath_ok hc
  exact realPlace_ok.mpr ⟨⟨hnul, hne⟩, hroute, hlen⟩

/-- Two paths of the same components lead to the same folders. -/
theorem realPlace_congr (h : f.components = g.components) (hfolder : d.isFolderAt folder)
    (hf : d.realPlace f = .ok folder) : d.realPlace g = .ok folder := by
  obtain ⟨⟨hnul, hne⟩, hroute, hlen⟩ := realPlace_ok.mp hf
  refine realPlace_ok.mpr ⟨⟨?_, ?_⟩, ?_, hlen⟩
  · rw [Path.hasNul_congr h.symm, hnul]
  · rintro rfl
    exact Path.components_ne_nil hne h
  · refine Route.of_bare ?_ hfolder
    have hmoves : f.moves = g.moves := by rw [Path.moves, h, Path.moves]
    rw [← Route.moves_iff hfolder, ← hmoves, start_eq rfl (Path.isAbsolute_congr h.symm), Route.moves_iff hfolder]
    exact hroute.bare

theorem standing?_join (hf : d.stat f = .ok folder) (hfolder : d.isFolderAt folder)
    (hlen : Text.utf8Size folder.path < pathLimit) (hn : n.IsPlain) :
    d.standing? (f.join n) = some (folder, n) := by
  have hne : f ≠ [] := (checkPath_ok (seek_ok.mp hf).1).2.1
  obtain ⟨a, hparent, hcs⟩ := Path.exists_parent?_join hne hn
  have hreal := realPlace_congr hcs.symm hfolder (realPlace_of_stat hf hlen)
  simp [standing?, hparent, Path.fileName?_join hne hn, hreal, Except.toOption]

end Disk

namespace Listing

-- ---------------------------------------------------------------------------
-- One folder
-- ---------------------------------------------------------------------------

/-- The states of a listing: the level, what has been found, and what of the level is still to be listed. -/
inductive Stage (d : Disk) (extensions : List Text) (root : Path) : Nat → Listing → List Path → Prop
  | start : Stage d extensions root 0 {} [root]
  | list {level l f waiting} : Stage d extensions root level l (f :: waiting) →
      Stage d extensions root level (addFolder d extensions l f) waiting
  | descend {level l} : Stage d extensions root level l [] → l.folders ≠ [] →
      Stage d extensions root (level + 1) { l with folders := [] } l.folders

/-- The folder's turn comes, and it has not been listed yet. -/
def Lists (d : Disk) (extensions : List Text) (root f : Path) : Prop :=
  ∃ level l waiting, Stage d extensions root level l (f :: waiting) ∧ key d f ∉ l.listed

/-- A path that the listing looks at: the root, or a name of a folder that is listed, joined to its path. -/
def Formed (d : Disk) (extensions : List Text) (root p : Path) : Prop :=
  p = root ∨ ∃ f place names n, Lists d extensions root f ∧ d.list f = .ok (place, names) ∧ n ∈ names ∧ p = f.join n

/-- What is known of a path that waits at a level: the names joined to the root lead to its folder. -/
def Queued (d : Disk) (extensions : List Text) (root : Path) (home : Place) (level : Nat) (f : Path) : Prop :=
  Formed d extensions root f ∧ ∃ rel place, f = rel.foldl Path.join root ∧ rel.length = level ∧
    d.stat f = .ok place ∧ d.isFolderAt place ∧ d.Passage home rel place

def next? (d : Disk) (extensions : List Text) :
    Nat × Listing × List Path → Option (Nat × Listing × List Path)
  | (level, l, f :: waiting) => some (level, addFolder d extensions l f, waiting)
  | (level, l, []) => if l.folders = [] then none else some (level + 1, { l with folders := [] }, l.folders)

variable {d : Disk} {extensions : List Text} {root f g p : Path} {home place folder q : Place} {names : List Name}
  {n : Name} {l : Listing} {level fuel : Nat} {waiting queue : List Path} {places : List Place}

theorem Stage.mem_of_closed (states : List (Nat × Listing × List Path)) (hstart : (0, {}, [root]) ∈ states)
    (hclosed : ∀ s ∈ states, ∀ next ∈ next? d extensions s, next ∈ states)
    (h : Stage d extensions root level l waiting) : (level, l, waiting) ∈ states := by
  induction h with
  | start => exact hstart
  | list _ ih => exact hclosed _ ih _ rfl
  | descend _ hne ih => exact hclosed _ ih _ (by simp [next?, hne])

theorem accepts_iff : accepts extensions n = true ↔ extensions = [] ∨
    ∃ e, n.extension? = some e ∧ ∃ wanted ∈ extensions, Text.asciiLower wanted = Text.asciiLower e := by
  unfold accepts
  cases n.extension? <;> simp

def filesIn (d : Disk) (extensions : List Text) (f : Path) (names : List Name) : List Name :=
  names.filter fun n => d.isFile (f.join n) && accepts extensions n

def foldersIn (d : Disk) (f : Path) (names : List Name) : List Path := (names.map f.join).filter d.isFolder

theorem mem_foldersIn : g ∈ foldersIn d f names ↔ ∃ n ∈ names, f.join n = g ∧ d.isFolder g = true := by
  simp only [foldersIn, List.mem_filter, List.mem_map, ← exists_and_right, and_assoc]

theorem foldl_addEntry (names : List Name) (l : Listing) : names.foldl (addEntry d extensions f) l =
    { l with
      folders := l.folders ++ foldersIn d f names
      files := l.files ++ (filesIn d extensions f names).map f.join } := by
  unfold foldersIn filesIn
  induction names generalizing l with
  | nil => simp
  | cons n names ih =>
    rw [List.foldl_cons, ih, addEntry]
    cases hfile : d.isFile (f.join n) with
    | true =>
      have hfolder := Disk.isFolder_of_isFile hfile
      cases haccepts : accepts extensions n <;> simp [hfile, hfolder, haccepts]
    | false => cases hfolder : d.isFolder (f.join n) <;> simp [hfile, hfolder]

theorem addFolder_repeated (h : key d f ∈ l.listed) :
    addFolder d extensions l f = { l with repeated := l.repeated ++ [f] } := by
  rw [addFolder, if_pos h]

theorem addFolder_fresh (h : key d f ∉ l.listed) (hl : d.list f = .ok (place, names)) :
    addFolder d extensions l f = { l with
      listed := l.listed ++ [key d f]
      folders := l.folders ++ foldersIn d f names
      files := l.files ++ (filesIn d extensions f names).map f.join } := by
  rw [addFolder, if_neg h]
  simp only [hl, foldl_addEntry]

theorem key_of_stat (hf : d.stat f = .ok folder) (hlen : Text.utf8Size folder.path < pathLimit) :
    key d f = folder.path := by
  simp [key, Disk.realPath, Disk.realPlace_of_stat hf hlen, Except.map]

-- ---------------------------------------------------------------------------
-- The queue
-- ---------------------------------------------------------------------------

/-- When its turn comes, a folder that was listed before is left out, and of any other the names are taken up. -/
theorem Queued.addFolder_cases (h : Queued d extensions root home level f) (l : Listing) :
    ∃ rel folder, d.stat f = .ok folder ∧ d.isFolderAt folder ∧ d.Passage home rel folder ∧
      (key d f ∈ l.listed ∧ addFolder d extensions l f = { l with repeated := l.repeated ++ [f] } ∨
        key d f ∉ l.listed ∧ addFolder d extensions l f = { l with
          listed := l.listed ++ [key d f]
          folders := l.folders ++ foldersIn d f (d.names folder)
          files := l.files ++ (filesIn d extensions f (d.names folder)).map f.join }) := by
  obtain ⟨-, rel, folder, -, -, hf, hfolder, hpassage⟩ := h
  refine ⟨rel, folder, hf, hfolder, hpassage, ?_⟩
  by_cases hkey : key d f ∈ l.listed
  · exact .inl ⟨hkey, addFolder_repeated hkey⟩
  · exact .inr ⟨hkey, addFolder_fresh hkey (Disk.list_of_stat hf hfolder)⟩

theorem Queued.plain (hd : d.WellFormed) (h : Queued d extensions root home level f) :
    ∃ rel : List Name, f = rel.foldl Path.join root ∧ rel.length = level ∧ ∀ n ∈ rel, n.IsPlain := by
  obtain ⟨-, rel, place, hrel, hlevel, -, -, hpassage⟩ := h
  exact ⟨rel, hrel, hlevel, hpassage.plain hd⟩

theorem Queued.level_lt (hd : d.WellFormed) (h : Queued d extensions root home level f) : level < pathLimit := by
  obtain ⟨rel, hrel, hlevel, hplain⟩ := h.plain hd
  obtain ⟨-, -, place, -, -, hstat, -⟩ := h
  have hlen := (Disk.checkPath_ok (Disk.seek_ok.mp hstat).1).2.2
  have hgrows := Path.length_le_utf8Size_foldl_join root hplain
  rw [← hrel] at hgrows
  omega

theorem Queued.enter (hd : d.WellFormed) (h : Queued d extensions root home level f) (hf : d.stat f = .ok folder)
    (hlists : Lists d extensions root f) (hn : n ∈ d.names folder) (hfolder : d.isFolder (f.join n) = true) :
    Queued d extensions root home (level + 1) (f.join n) := by
  obtain ⟨-, rel, place, hrel, hlevel, hstat, hplace, hpassage⟩ := h
  obtain rfl : place = folder := by simpa [hstat] using hf
  obtain ⟨q, hq, hqfolder⟩ := Disk.isFolder_iff.mp hfolder
  have hleads := Disk.leads_of_stat_join hstat (hd.plain_of_mem_names hn) hq
  refine ⟨.inr ⟨f, place, _, n, hlists, Disk.list_of_stat hstat hplace, hn, rfl⟩, rel ++ [n], q, ?_, ?_, hq,
    hqfolder, hpassage.enter hleads hqfolder⟩
  · simp [hrel]
  · simp [hlevel]

theorem Stage.queued (hd : d.WellFormed) (hroot : d.stat root = .ok home) (hhome : d.isFolderAt home)
    (h : Stage d extensions root level l waiting) :
    (∀ f ∈ waiting, Queued d extensions root home level f) ∧
      ∀ f ∈ l.folders, Queued d extensions root home (level + 1) f := by
  induction h with
  | start => exact ⟨by simpa using ⟨.inl rfl, [], home, rfl, rfl, hroot, hhome, .start⟩, by simp⟩
  | @list level l f waiting hstage ih =>
    obtain ⟨hwaiting, hfolders⟩ := ih
    refine ⟨fun g hg => hwaiting g (List.mem_cons_of_mem f hg), fun g hg => ?_⟩
    have hqueued := hwaiting f List.mem_cons_self
    obtain ⟨-, place, hstat, -, -, ⟨-, heq⟩ | ⟨hkey, heq⟩⟩ := hqueued.addFolder_cases l
    · rw [heq] at hg
      exact hfolders g hg
    · rw [heq] at hg
      rcases List.mem_append.mp hg with hg | hg
      · exact hfolders g hg
      · obtain ⟨n, hn, rfl, hfolder⟩ := mem_foldersIn.mp hg
        exact hqueued.enter hd hstat ⟨level, l, waiting, hstage, hkey⟩ hn hfolder
  | descend _ _ ih => exact ⟨ih.2, by simp⟩

theorem Stage.level_lt (hd : d.WellFormed) (hroot : d.stat root = .ok home) (hhome : d.isFolderAt home)
    (h : Stage d extensions root level l waiting) : level < pathLimit := by
  induction h with
  | start => decide
  | list _ ih => exact ih
  | descend hstage hne _ =>
    obtain ⟨g, others, hfolders⟩ := List.exists_cons_of_ne_nil hne
    exact ((hstage.queued hd hroot hhome).2 g (by simp [hfolders])).level_lt hd

-- ---------------------------------------------------------------------------
-- The last state
-- ---------------------------------------------------------------------------

theorem Stage.list_all (h : Stage d extensions root level l waiting) :
    Stage d extensions root level (waiting.foldl (addFolder d extensions) l) [] := by
  induction waiting generalizing l with
  | nil => exact h
  | cons f waiting ih => exact ih h.list

theorem Stage.listTree_eq (hd : d.WellFormed) (hroot : d.stat root = .ok home) (hhome : d.isFolderAt home)
    (h : Stage d extensions root level l waiting) : d.listTree root extensions =
      levels d extensions (pathLimit - (level + 1)) (waiting.foldl (addFolder d extensions) l) := by
  induction h with
  | start =>
    have hfolder : d.isFolder root = true := Disk.isFolder_iff.mpr ⟨home, hroot, hhome⟩
    obtain ⟨fuel, hfuel⟩ : ∃ fuel, pathLimit = fuel + 1 := ⟨pathLimit - 1, rfl⟩
    rw [Disk.listTree, if_pos hfolder, hfuel, levels, if_neg (by simp), Nat.zero_add, Nat.add_sub_cancel]
  | list _ ih => exact ih
  | @descend level l hstage hne ih =>
    have hlevel := (Stage.descend hstage hne).level_lt hd hroot hhome
    obtain ⟨fuel, hfuel⟩ : ∃ fuel, pathLimit - (level + 1) = fuel + 1 := ⟨pathLimit - (level + 2), by omega⟩
    rw [ih, hfuel, List.foldl_nil, levels, if_neg hne, show pathLimit - (level + 1 + 1) = fuel by omega]

theorem Stage.exists_last (hd : d.WellFormed) (hroot : d.stat root = .ok home) (hhome : d.isFolderAt home)
    (h : Stage d extensions root level l []) (hfuel : pathLimit ≤ level + 1 + fuel) :
    (levels d extensions fuel l).folders = [] ∧
      ∃ last, Stage d extensions root last (levels d extensions fuel l) [] := by
  induction fuel generalizing level l with
  | zero =>
    refine ⟨?_, level, h⟩
    by_contra hne
    have hlevel := (h.descend hne).level_lt hd hroot hhome
    omega
  | succ fuel ih =>
    rw [levels]
    split
    · rename_i hnil
      exact ⟨hnil, level, h⟩
    · rename_i hne
      exact ih (h.descend hne).list_all (by omega)

/-- The levels end before the fuel does, and the last state of the listing is its result. -/
theorem exists_last_stage (extensions : List Text) (hd : d.WellFormed) (hroot : d.stat root = .ok home)
    (hhome : d.isFolderAt home) : (d.listTree root extensions).folders = [] ∧
      ∃ level, Stage d extensions root level (d.listTree root extensions) [] := by
  rw [Stage.start.listTree_eq hd hroot hhome]
  exact Stage.start.list_all.exists_last hd hroot hhome (by omega)

-- ---------------------------------------------------------------------------
-- What has been found
-- ---------------------------------------------------------------------------

/-- An entry of a folder that leads to a regular file and passes the filter. -/
def Wanted (d : Disk) (extensions : List Text) (folder : Place) (n : Name) : Prop :=
  (∃ place, d.Leads folder n place ∧ (d.node? place).any Node.isFile) ∧ accepts extensions n = true

/-- The folders at `places` have been listed, each once, and where they lead has been listed too or waits. -/
structure Covers (d : Disk) (extensions : List Text) (home : Place) (places : List Place) (l : Listing)
    (queue : List Path) : Prop where
  listed : l.listed = places.map Place.path
  distinct : places.Nodup
  reached : ∀ folder ∈ places, d.isFolderAt folder ∧ d.Reachable home folder
  files : ∀ x, x ∈ l.files.map d.standing? ↔
    ∃ folder ∈ places, ∃ n, x = some (folder, n) ∧ Wanted d extensions folder n
  once : (l.files.map d.standing?).Nodup
  home : home ∈ places ∨ ∃ f ∈ queue, d.stat f = .ok home
  closed : ∀ folder ∈ places, ∀ n place, d.Leads folder n place → d.isFolderAt place →
    place ∈ places ∨ ∃ f ∈ queue, d.stat f = .ok place

theorem Covers.plain (hd : d.WellFormed) (h : Covers d extensions home places l queue) (hf : folder ∈ places) :
    ∀ n ∈ folder, n.IsPlain := by
  obtain ⟨mode, hi⟩ := Disk.isFolderAt_iff.mp (h.reached folder hf).1
  exact fun n hn => (hd.names hi n hn).1

theorem Covers.listed_iff (hd : d.WellFormed) (h : Covers d extensions home places l queue)
    (hf : d.isFolderAt folder) : folder.path ∈ l.listed ↔ folder ∈ places := by
  obtain ⟨mode, hi⟩ := Disk.isFolderAt_iff.mp hf
  rw [h.listed, List.mem_map]
  refine ⟨?_, fun hmem => ⟨folder, hmem, rfl⟩⟩
  rintro ⟨place, hplace, hpath⟩
  rwa [← Place.path_inj (h.plain hd hplace) (fun n hn => (hd.names hi n hn).1) hpath]

theorem listed_or_waits {places' : List Place} {queue' : List Path} (hf : d.stat f = .ok folder)
    (hmem : folder ∈ places') (hplaces : places ⊆ places') (hqueue : queue ⊆ queue')
    (hq : q ∈ places ∨ ∃ g ∈ f :: queue, d.stat g = .ok q) : q ∈ places' ∨ ∃ g ∈ queue', d.stat g = .ok q := by
  obtain hq | ⟨g, hg, hstat⟩ := hq
  · exact .inl (hplaces hq)
  · rcases List.mem_cons.mp hg with rfl | hg
    · obtain rfl : folder = q := by simpa [hf] using hstat
      exact .inl hmem
    · exact .inr ⟨g, hqueue hg, hstat⟩

theorem Covers.skip (h : Covers d extensions home places l (f :: queue)) (hf : d.stat f = .ok folder)
    (hmem : folder ∈ places) : Covers d extensions home places { l with repeated := l.repeated ++ [f] } queue :=
  { h with
    home := listed_or_waits hf hmem (List.Subset.refl _) (List.Subset.refl _) h.home
    closed := fun place hplace n q hleads hq => listed_or_waits hf hmem (List.Subset.refl _) (List.Subset.refl _)
      (h.closed place hplace n q hleads hq) }

theorem mem_filesIn (hd : d.WellFormed) (hf : d.stat f = .ok folder) (hfolder : d.isFolderAt folder)
    (hlim : ∀ n ∈ d.names folder, d.WithinLimits (f.join n)) :
    n ∈ filesIn d extensions f (d.names folder) ↔ Wanted d extensions folder n := by
  rw [filesIn, List.mem_filter, Bool.and_eq_true, Disk.isFile_iff, Wanted]
  constructor
  · rintro ⟨hn, ⟨place, hstat, hfile⟩, haccepts⟩
    exact ⟨⟨place, Disk.leads_of_stat_join hf (hd.plain_of_mem_names hn) hstat, hfile⟩, haccepts⟩
  · rintro ⟨⟨place, hleads, hfile⟩, haccepts⟩
    have hn := hleads.mem_names
    refine ⟨hn, ⟨place, ?_, hfile⟩, haccepts⟩
    exact (Disk.stat_join_iff hf hfolder (hd.plain_of_mem_names hn) (hlim n hn)).mpr
      ⟨hleads, Disk.isSome_of_isFile hfile⟩

theorem standing_filesIn (hd : d.WellFormed) (hf : d.stat f = .ok folder) (hfolder : d.isFolderAt folder)
    (hlen : Text.utf8Size folder.path < pathLimit) (extensions : List Text) :
    ((filesIn d extensions f (d.names folder)).map f.join).map d.standing? =
      (filesIn d extensions f (d.names folder)).map fun n => some (folder, n) := by
  rw [List.map_map]
  refine List.map_congr_left fun n hn => ?_
  exact Disk.standing?_join hf hfolder hlen (hd.plain_of_mem_names (List.mem_filter.mp hn).1)

theorem Covers.add (hd : d.WellFormed) (h : Covers d extensions home places l (f :: queue))
    (hf : d.stat f = .ok folder) (hfolder : d.isFolderAt folder) (hreach : d.Reachable home folder)
    (hnew : folder ∉ places) (hlen : Text.utf8Size folder.path < pathLimit)
    (hlim : ∀ n ∈ d.names folder, d.WithinLimits (f.join n)) :
    Covers d extensions home (places ++ [folder]) { l with
      listed := l.listed ++ [folder.path]
      folders := l.folders ++ foldersIn d f (d.names folder)
      files := l.files ++ (filesIn d extensions f (d.names folder)).map f.join }
      (queue ++ foldersIn d f (d.names folder)) := by
  have hstanding := standing_filesIn hd hf hfolder hlen extensions
  have hkeep {q : Place} (hq : q ∈ places ∨ ∃ g ∈ f :: queue, d.stat g = .ok q) :=
    listed_or_waits hf (List.mem_append_right places List.mem_cons_self) (List.subset_append_left places [folder])
      (List.subset_append_left queue (foldersIn d f (d.names folder))) hq
  constructor
  case listed => simp [h.listed]
  case distinct => exact List.nodup_append.mpr ⟨h.distinct, by simp, by
    rintro place hplace _ hmem rfl
    exact hnew (List.mem_singleton.mp hmem ▸ hplace)⟩
  case reached =>
    intro place hplace
    rcases List.mem_append.mp hplace with hplace | hplace
    · exact h.reached place hplace
    · rw [List.mem_singleton.mp hplace]
      exact ⟨hfolder, hreach⟩
  case files =>
    intro x
    have hfound : x ∈ (filesIn d extensions f (d.names folder)).map (fun n => some (folder, n)) ↔
        ∃ n, x = some (folder, n) ∧ Wanted d extensions folder n := by
      simp only [List.mem_map, mem_filesIn hd hf hfolder hlim]
      exact exists_congr fun n => ⟨fun ⟨hw, hx⟩ => ⟨hx.symm, hw⟩, fun ⟨hx, hw⟩ => ⟨hw, hx.symm⟩⟩
    rw [List.map_append, hstanding, List.mem_append, hfound, h.files x]
    simp only [List.mem_append, List.mem_singleton, or_and_right, exists_or, exists_eq_left]
  case once =>
    rw [List.map_append, hstanding]
    refine List.nodup_append.mpr ⟨h.once, ?_, ?_⟩
    · refine List.Nodup.map (fun n m hnm => ?_) ((Disk.nodup_names d folder).filter _)
      simpa using hnm
    · rintro x hx _ hx' rfl
      obtain ⟨place, hplace, n, rfl, -⟩ := (h.files x).mp hx
      obtain ⟨m, -, hm⟩ := List.mem_map.mp hx'
      simp only [Option.some.injEq, Prod.mk.injEq] at hm
      exact hnew (hm.1 ▸ hplace)
  case home => exact hkeep h.home
  case closed =>
    intro place hplace n q hleads hq
    rcases List.mem_append.mp hplace with hplace | hplace
    · exact hkeep (h.closed place hplace n q hleads hq)
    · rw [List.mem_singleton.mp hplace] at hleads
      have hn := hleads.mem_names
      have hstat := (Disk.stat_join_iff hf hfolder (hd.plain_of_mem_names hn) (hlim n hn)).mpr
        ⟨hleads, Disk.isSome_of_isFolderAt hq⟩
      have hwaits : f.join n ∈ foldersIn d f (d.names folder) :=
        mem_foldersIn.mpr ⟨n, hn, rfl, Disk.isFolder_iff.mpr ⟨q, hstat, hq⟩⟩
      exact .inr ⟨f.join n, List.mem_append_right _ hwaits, hstat⟩

theorem Stage.covers (hd : d.WellFormed) (hroot : d.stat root = .ok home) (hhome : d.isFolderAt home)
    (hlimits : ∀ p, Formed d extensions root p → d.WithinLimits p) (h : Stage d extensions root level l waiting) :
    ∃ places, Covers d extensions home places l (waiting ++ l.folders) := by
  induction h with
  | start =>
    exact ⟨[], by simp, by simp, by simp, by simp, by simp, .inr ⟨root, by simp, hroot⟩, by simp⟩
  | @list level l f waiting hstage ih =>
    obtain ⟨places, hcovers⟩ := ih
    have hqueued := (hstage.queued hd hroot hhome).1 f List.mem_cons_self
    obtain ⟨rel, folder, hf, hfolder, hpassage, hcases⟩ := hqueued.addFolder_cases l
    have hlen := (hlimits f hqueued.1).path_lt hf hfolder
    have hkey := key_of_stat hf hlen
    have hmem : key d f ∈ l.listed ↔ folder ∈ places := hkey ▸ hcovers.listed_iff hd hfolder
    rcases hcases with ⟨hold, heq⟩ | ⟨hnew, heq⟩
    · rw [heq]
      exact ⟨places, hcovers.skip hf (hmem.mp hold)⟩
    · have hlists : Lists d extensions root f := ⟨level, l, waiting, hstage, hnew⟩
      have hadd := hcovers.add hd hf hfolder ⟨rel, hpassage⟩ (fun hplace => hnew (hmem.mpr hplace)) hlen
        fun n hn => hlimits _ (.inr ⟨f, folder, _, n, hlists, Disk.list_of_stat hf hfolder, hn, rfl⟩)
      rw [heq, hkey]
      exact ⟨_, by simpa using hadd⟩
  | descend _ _ ih =>
    obtain ⟨places, hcovers⟩ := ih
    exact ⟨places, by simpa using { hcovers with }⟩

theorem Covers.reaches (h : Covers d extensions home places l []) (hq : d.Reachable home q) : q ∈ places := by
  obtain ⟨rel, hpassage⟩ := hq
  induction hpassage with
  | start => simpa using h.home
  | enter _ hleads hfolder ih => simpa using h.closed _ ih _ _ hleads hfolder

-- ---------------------------------------------------------------------------
-- States that can be checked
-- ---------------------------------------------------------------------------

def states (d : Disk) (extensions : List Text) : Nat → Nat × Listing × List Path → List (Nat × Listing × List Path)
  | 0, s => [s]
  | more + 1, s => s :: ((next? d extensions s).map (states d extensions more)).getD []

def formedAt (d : Disk) : Nat × Listing × List Path → List Path
  | (_, _, f :: _) =>
    match d.list f with
    | .ok (_, names) => names.map f.join
    | .error _ => []
  | (_, _, []) => []

/-- Whether all paths that are formed keep within the limits is a matter of the states up to the last one. -/
theorem withinLimits_of_states (more : Nat)
    (hclosed : ∀ s ∈ states d extensions more (0, {}, [root]), ∀ next ∈ next? d extensions s,
      next ∈ states d extensions more (0, {}, [root]))
    (hfits : ∀ p ∈ root :: (states d extensions more (0, {}, [root])).flatMap (formedAt d), d.fits p = true) :
    ∀ p, Formed d extensions root p → d.WithinLimits p := by
  have hstart : (0, {}, [root]) ∈ states d extensions more (0, {}, [root]) := by
    cases more <;> exact List.mem_cons_self
  rintro p (rfl | ⟨f, place, names, n, ⟨level, l, waiting, hstage, -⟩, hlist, hn, rfl⟩)
  · exact .of_fits (hfits p List.mem_cons_self)
  · have hstate := hstage.mem_of_closed _ hstart hclosed
    refine .of_fits (hfits _ (List.mem_cons_of_mem _ (List.mem_flatMap.mpr ⟨_, hstate, ?_⟩)))
    simpa only [formedAt, hlist] using List.mem_map_of_mem hn

end Listing

namespace Disk

variable {d : Disk} {root : Path} {extensions : List Text} {home : Place}

/-- The listing comes to an end, and what it finds is every file that can be reached from the root and passes
the filter: once for each folder and name, by whatever routes the folder can be reached. -/
theorem enumerate_complete (hd : d.WellFormed) (hroot : d.stat root = .ok home) (hhome : d.isFolderAt home)
    (hlimits : ∀ p, Listing.Formed d extensions root p → d.WithinLimits p) :
    (d.listTree root extensions).folders = [] ∧
      ((d.enumerate root extensions).map d.standing?).Nodup ∧
      ∀ x, x ∈ (d.enumerate root extensions).map d.standing? ↔ ∃ folder n, x = some (folder, n) ∧
        d.Reachable home folder ∧ n ∈ d.names folder ∧
        (∃ place, d.Leads folder n place ∧ (d.node? place).any Node.isFile) ∧
        (extensions = [] ∨ ∃ e, n.extension? = some e ∧
          ∃ wanted ∈ extensions, Text.asciiLower wanted = Text.asciiLower e) := by
  obtain ⟨hend, level, hlast⟩ := Listing.exists_last_stage extensions hd hroot hhome
  obtain ⟨places, hcovers⟩ := hlast.covers hd hroot hhome hlimits
  rw [hend, List.append_nil] at hcovers
  refine ⟨hend, hcovers.once, fun x => (hcovers.files x).trans ?_⟩
  constructor
  · rintro ⟨folder, hfolder, n, rfl, ⟨place, hleads, hfile⟩, haccepts⟩
    exact ⟨folder, n, rfl, (hcovers.reached folder hfolder).2, hleads.mem_names, ⟨place, hleads, hfile⟩,
      Listing.accepts_iff.mp haccepts⟩
  · rintro ⟨folder, n, rfl, hreach, -, hfile, haccepts⟩
    exact ⟨folder, hcovers.reaches hreach, n, rfl, hfile, Listing.accepts_iff.mpr haccepts⟩

def wired : Disk :=
  { items := [([['r']], .folder 0o755), ([['r'], "A.TXT".toList], .leaf 0), ([['r'], ['s']], .folder 0o755),
      ([['r'], ['t']], .leaf 1), ([['r'], ['x']], .leaf 2), ([['r'], ['s'], ['u']], .leaf 3),
      ([['r'], ['s'], "b.txt".toList], .leaf 4), ([['r'], ['s'], ['c']], .leaf 5)]
    nodes := [(1, .link ['s']), (2, .link ['n']), (3, .link "..".toList)]
    cwd := [] }

theorem enumerate_complete_wired :
    (∀ p, Listing.Formed wired ["txt".toList] "r/".toList p → wired.WithinLimits p) ∧
    wired.enumerate "r/".toList ["txt".toList] = ["r/A.TXT".toList, "r/s/b.txt".toList] ∧
    ((wired.enumerate "r/".toList ["txt".toList]).map wired.standing?).Nodup ∧
    ∀ x, x ∈ (wired.enumerate "r/".toList ["txt".toList]).map wired.standing? ↔
      ∃ folder n, x = some (folder, n) ∧ wired.Reachable [['r']] folder ∧ n ∈ wired.names folder ∧
        (∃ place, wired.Leads folder n place ∧ (wired.node? place).any Node.isFile) ∧
        (["txt".toList] = [] ∨ ∃ e, n.extension? = some e ∧
          ∃ wanted ∈ ["txt".toList], Text.asciiLower wanted = Text.asciiLower e) := by
  have hlimits : ∀ p, Listing.Formed wired ["txt".toList] "r/".toList p → wired.WithinLimits p :=
    Listing.withinLimits_of_states 7 (by decide +kernel) (by decide +kernel)
  have hd : wired.WellFormed := .of_items (by decide +kernel)
  have hroot : wired.stat "r/".toList = .ok [['r']] := by decide +kernel
  have hhome : wired.isFolderAt [['r']] := by decide +kernel
  obtain ⟨-, honce, hfiles⟩ := enumerate_complete hd hroot hhome hlimits
  exact ⟨hlimits, by decide +kernel, honce, hfiles⟩

end Disk

end SafeFiles
