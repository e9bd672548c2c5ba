import SafeFiles.Proofs.CanonicalLaws
import SafeFiles.Proofs.Disk.BrinkLaws
import SafeFiles.Proofs.Disk.RenameLaws
import SafeFiles.Proofs.Tree.DeleteLaws

/-!
# A deletion that leaves nothing behind

While a tree is taken down, its links come to point nowhere. A link whose target
is gone is resolved through the folder that it stands in, so it passes the check
on its text then even if it would not have before; that is why the links can be
judged on the disk as it was at first. What a deletion needs besides is that its own
way stays: a root that is reached through a link below itself is cut off as soon as
that link is gone (`deleteTree_complete_iff`, `deleteTree_cut_off`).
-/

namespace SafeFiles

namespace Disk

variable {d d' : Disk} {p root : Path} {place home q folder : Place} {n : Name} {rel : List Name} {id : NodeId}
  {names : List Name}

-- ---------------------------------------------------------------------------
-- Paths that name an entry
-- ---------------------------------------------------------------------------

/-- The last name of the path is the entry's, with nothing behind it, and stands in a real folder. -/
def Names (d : Disk) (p : Path) (place : Place) : Prop :=
  ∃ folder n, d.folderOf p = .ok (folder, .name n false) ∧ place = folder ++ [n]

theorem Names.lstat (h : d.Names p place) (hd : d.WellFormed) (hi : (d.item? place).isSome) :
    d.lstat p = .ok place := by
  obtain ⟨folder, n, hf, rfl⟩ := h
  exact lstat_of_folderOf hd hf hi

theorem Names.unlink (h : d.Names p place) (hd : d.WellFormed) (hi : d.item? place = some (.leaf id))
    (hfix : (d.node id).isFixed = false) : d.unlink p = .ok (d.eraseItem place) := by
  obtain ⟨folder, n, hf, rfl⟩ := h
  exact unlink_ok.mpr ⟨folder, n, id, hf, (hd.names hi n (by simp)).2, hi, hfix, rfl⟩

theorem Names.removeFolder (h : d.Names p place) (hd : d.WellFormed) (hf : d.isFolderAt place)
    (hempty : d.names place = []) : d.removeFolder p = .ok (d.eraseItem place) := by
  obtain ⟨folder, n, hfolder, rfl⟩ := h
  obtain ⟨mode, hm⟩ := isFolderAt_iff.mp hf
  exact removeFolder_ok.mpr ⟨folder, n, false, hfolder, (hd.names hm n (by simp)).2, hf, hempty, rfl⟩

theorem names_of_lstat (hd : d.WellFormed) (hsteps : p.steps = names.map .down) (hne : names ≠ [])
    (h : d.lstat p = .ok place) : d.isFolderAt (d.start p) ∧ d.Names p place := by
  obtain ⟨hc, hr, -⟩ := seek_ok.mp h
  have hstart : d.isFolderAt (d.start p) := by
    obtain ⟨n, rest, rfl⟩ := List.exists_cons_of_ne_nil hne
    rw [hsteps] at hr
    exact hd.parents hr.item?_down
  refine ⟨hstart, ?_⟩
  obtain ⟨before, n, rfl⟩ := (List.eq_nil_or_concat names).resolve_left hne
  have hlast : p.steps = before.map .down ++ [.down n] := by rw [hsteps, List.concat_eq_append, List.map_append]; rfl
  rw [hlast] at hr
  obtain ⟨mid, _, -, hmid, -, hf⟩ := hr.split (by simp)
  have hfolder := folderOf_of_steps hc hlast hmid (hf hd hstart)
  exact ⟨mid, n, hfolder, eq_of_lstat hfolder h⟩

theorem slash_of_names {slash : Bool} (hsteps : p.steps = names.map .down)
    (h : d.folderOf p = .ok (folder, .name n slash)) : slash = false := by
  obtain ⟨before, hlast, -⟩ := folderOf_name h
  rw [hsteps] at hlast
  cases slash with
  | false => rfl
  | true =>
    have hslash : Step.slash ∈ names.map .down := by simp [hlast]
    simp at hslash

theorem Names.join (hd : d.WellFormed) (hl : d.lstat p = .ok place) (hf : d.isFolderAt place)
    (hi : (d.item? (place ++ (rel ++ [n]))).isSome)
    (hlen : Text.utf8Size ((rel ++ [n]).foldl Path.join p) < pathLimit) :
    d.Names ((rel ++ [n]).foldl Path.join p) (place ++ (rel ++ [n])) := by
  obtain ⟨item, hitem⟩ := Option.isSome_iff_exists.mp hi
  have hplain : ∀ m ∈ rel ++ [n], m.IsPlain := fun m hm => (hd.names hitem m (List.mem_append_right _ hm)).1
  have hrel : d.isFolderAt (place ++ rel) := hd.parents (n := n) (by simp [hitem])
  have hc := checkPath_foldl_join hplain (seek_ok.mp hl).1 hlen
  refine ⟨place ++ rel, n, folderOf_of_steps hc (Path.steps_foldl_join p hplain) ?_ hrel, by simp⟩
  rw [start_foldl_join d p hplain]
  exact (route_of_lstat_folder hl hf).bare.down hd hf hrel

-- ---------------------------------------------------------------------------
-- Trees that lose entries
-- ---------------------------------------------------------------------------

/-- The disk without all that stands below a place. -/
def emptied (d : Disk) (place : Place) : Disk :=
  { d with items := d.items.filter fun entry => !(place.isPrefixOf entry.1 && entry.1 ≠ place) }

theorem item?_emptied (d : Disk) (place q : Place) :
    (d.emptied place).item? q = if place <+: q ∧ q ≠ place then none else d.item? q := by
  by_cases hq : q = []
  · subst hq
    have hroot : ¬ (place <+: [] ∧ [] ≠ place) := fun ⟨hin, hne⟩ => hne (List.prefix_nil.mp hin).symm
    rw [if_neg hroot]
    rfl
  · rw [item?_eq_get? hq, item?_eq_get? hq, emptied,
      Table.get?_filter_keys _ fun key => !(place.isPrefixOf key && key ≠ place)]
    simp only [← List.isPrefixOf_iff_prefix]
    by_cases hin : place.isPrefixOf q = true <;> by_cases hne : q = place <;> simp [hin, hne]

/-- A tree that has lost nothing but entries below the place. -/
structure Shrunk (place : Place) (d d' : Disk) : Prop where
  tree : d'.WellFormed
  pruned : Pruned (fun q => place <+: q ∧ place ≠ q) d d'

theorem Shrunk.refl (hd : d.WellFormed) (place : Place) : Shrunk place d d := ⟨hd, .refl d⟩

theorem Shrunk.emptied_within (h : Shrunk place d d') : (d.emptied place).Within d' := by
  refine ⟨fun {q item} hq => ?_, fun _ => h.pruned.node _⟩
  rw [item?_emptied] at hq
  split at hq
  · cases hq
  · rename_i hkept
    rcases h.pruned.items q with hsame | ⟨-, hbelow, hne⟩
    · rw [hsame, hq]
    · exact absurd ⟨hbelow, hne.symm⟩ hkept

theorem Shrunk.within_emptied (h : Shrunk place d d')
    (hempty : ∀ below, below ≠ [] → d'.item? (place ++ below) = none) :
    d'.Within (d.emptied place) := by
  refine ⟨fun {q item} hq => ?_, fun _ => (h.pruned.node _).symm⟩
  rw [item?_emptied, if_neg, h.pruned.within.item hq]
  rintro ⟨⟨below, rfl⟩, hne⟩
  rw [hempty below (by simpa using hne)] at hq
  cases hq

-- ---------------------------------------------------------------------------
-- A tree that can be taken down
-- ---------------------------------------------------------------------------

/-- The root exists and is spelled by names alone, all paths into the tree keep within the limits, and every link
below the root resolves to a path whose text starts with the root's real path, or to nothing. -/
structure Encloses (d : Disk) (root : Path) (place : Place) : Prop where
  tree : d.WellFormed
  named : ∃ names : List Name, names ≠ [] ∧ root.steps = names.map .down
  there : d.lstat root = .ok place
  short : ∀ rel, (d.item? (place ++ rel)).isSome →
    Text.utf8Size (rel.foldl Path.join root) < pathLimit ∧ Text.utf8Size (Place.path (place ++ rel)) < pathLimit
  links : ∀ rel home, rel ≠ [] → d.isLinkAt (place ++ rel) → d.canonicalPlace root = .ok home →
    (∃ q, d.realPlace (rel.foldl Path.join root) = .ok q ∧ q.path.startsWithText home.path) ∨
      ∃ f, d.realPlace (rel.foldl Path.join root) = .error f ∧ f.isNotFound = true

/-- What `Encloses` asks of one entry at or below the root. -/
def enclosed (d : Disk) (root : Path) (place q : Place) : Bool :=
  let p := (q.drop place.length).foldl Path.join root
  decide (Text.utf8Size p < pathLimit) && decide (Text.utf8Size q.path < pathLimit) &&
    (!d.isLinkAt q || decide (q = place) ||
      match d.canonicalPlace root, d.realPlace p with
      | .ok home, .ok target => target.path.startsWithText home.path
      | .ok _, .error f => f.isNotFound
      | .error _, _ => true)

namespace Encloses

theorem of_items (hd : d.WellFormed) (hnamed : ∃ names : List Name, names ≠ [] ∧ root.steps = names.map .down)
    (hl : d.lstat root = .ok place) (hne : place ≠ [])
    (h : ∀ entry ∈ d.items, place <+: entry.1 → d.enclosed root place entry.1) : d.Encloses root place := by
  have hentry {rel} (hi : (d.item? (place ++ rel)).isSome) : d.enclosed root place (place ++ rel) := by
    obtain ⟨item, hi⟩ := Option.isSome_iff_exists.mp hi
    rw [item?_eq_get? (by simp [hne])] at hi
    exact h _ (Table.mem_of_get? hi) (List.prefix_append place rel)
  simp only [enclosed, List.drop_left, Bool.and_eq_true, decide_eq_true_iff] at hentry
  refine ⟨hd, hnamed, hl, fun rel hi => (hentry hi).1, fun rel home hrel hlink hreal => ?_⟩
  obtain ⟨id, hi⟩ := leaf_of_link hlink
  have hthere : (d.item? (place ++ rel)).isSome := by simp [hi]
  have hchecked := (hentry hthere).2
  cases htarget : d.realPlace (rel.foldl Path.join root) with
  | ok q => exact .inl ⟨q, rfl, by simpa [hlink, hrel, hreal, htarget] using hchecked⟩
  | error f => exact .inr ⟨f, rfl, by simpa [hlink, hrel, hreal, htarget] using hchecked⟩

theorem plain (hs : Shrunk place d d') (hi : (d'.item? (place ++ rel)).isSome) :
    ∀ n ∈ rel, n.IsPlain := by
  obtain ⟨item, hitem⟩ := Option.isSome_iff_exists.mp hi
  exact fun n hn => (hs.tree.names hitem n (List.mem_append_right _ hn)).1

theorem isSome (hs : Shrunk place d d') (hi : (d'.item? q).isSome) : (d.item? q).isSome := by
  obtain ⟨item, hitem⟩ := Option.isSome_iff_exists.mp hi
  simp [hs.pruned.within.item hitem]

theorem ne_root (h : d.Encloses root place) : place ≠ [] := by
  obtain ⟨names, hne, hsteps⟩ := h.named
  obtain ⟨-, folder, n, -, rfl⟩ := names_of_lstat h.tree hsteps hne h.there
  simp

theorem home_eq (h : d.Encloses root place) (hreal : d.canonicalPlace root = .ok home) (hf : d.isFolderAt place) :
    home = place := by
  rw [Disk.canonicalPlace, realPlace_of_canonicalPlace h.there hf hreal] at hreal
  exact (Except.ok.inj hreal).symm

variable (h : d.Encloses root place) (hs : Shrunk place d d') (hway : (d.emptied place).lstat root = .ok place)

include hs hway in
theorem lstat : d'.lstat root = .ok place := hs.emptied_within.seek hs.pruned.cwd hway

include h hs hway in
theorem absolute (hrel : ∀ n ∈ rel, n.IsPlain) : ∃ abs, d'.absolute (rel.foldl Path.join root) = .ok abs := by
  have hl := lstat hs hway
  obtain ⟨-, hne, -⟩ := checkPath_ok (seek_ok.mp hl).1
  refine ⟨_, absolute_ok.mpr ⟨Path.foldl_join_ne_nil hrel hne, ?_, rfl⟩⟩
  rw [Path.isAbsolute_foldl_join root hrel]
  obtain ⟨names, hnames, hsteps⟩ := h.named
  have hstart := (names_of_lstat hs.tree hsteps hnames hl).1
  unfold Disk.start at hstart
  split at hstart
  · exact .inl ‹_›
  · exact .inr hstart

include h hs hway in
theorem names_below (hi : (d'.item? (place ++ rel)).isSome) : d'.Names (rel.foldl Path.join root) (place ++ rel) := by
  have hl := lstat hs hway
  rcases List.eq_nil_or_concat rel with rfl | ⟨init, n, rfl⟩
  · obtain ⟨names, hne, hsteps⟩ := h.named
    rw [List.append_nil]
    exact (names_of_lstat hs.tree hsteps hne hl).2
  · rw [List.concat_eq_append] at hi ⊢
    refine .join hs.tree hl (hs.tree.isFolderAt_above (init ++ [n]) (by simp) hi) hi ?_
    exact (h.short (init ++ [n]) (isSome hs hi)).1

include h hs hway in
theorem realPlace (hi : (d'.item? (place ++ rel)).isSome) (hlink : d'.isLinkAt (place ++ rel) = false) :
    d'.realPlace (rel.foldl Path.join root) = .ok (place ++ rel) := by
  obtain ⟨folder, n, hf, hplace⟩ := h.names_below hs hway hi
  obtain ⟨hnul, hne, -⟩ := checkPath_ok (folderOf_ok.mp hf).1
  refine realPlace_ok.mpr ⟨⟨hnul, hne⟩, ?_, (h.short rel (isSome hs hi)).2⟩
  rw [hplace] at hi hlink ⊢
  exact route_of_folderOf hs.tree hf hi fun hl => by simp [hl] at hlink

include h hs in
/-- Whatever has been removed, a path is resolved as at first, or to nothing. -/
theorem realPlace_shrunk (hc : checkPath p = .ok ()) :
    d'.realPlace p = d.realPlace p ∨ d'.realPlace p = .error (.system .noEntry) := by
  obtain ⟨hnul, hne, -⟩ := checkPath_ok hc
  rw [realPlace_eq hnul hne, realPlace_eq hnul hne, Within.start hs.pruned.cwd]
  rcases walk_within hs.pruned.within with hsame | hgone
  · exact .inl (congrArg arrival hsame)
  · refine .inr (arrival_of_missing hgone.missing fun spot hspot => ?_)
    rcases hgone with hend | ⟨folder, n, hend, hold, hnew⟩
    · rw [hend] at hspot
      cases hspot
    · -- The missing name was an entry below the root, so its path is short.
      rw [hend] at hspot
      cases hspot
      rcases hs.pruned.items (folder ++ [n]) with hsame | ⟨-, ⟨below, hbelow⟩, -⟩
      · rw [← hsame, hnew] at hold
        cases hold
      · rw [Spot.place, ← hbelow]
        exact (h.short below (by rwa [hbelow])).2

include h hs hway in
/-- At every time a child of a folder in the tree passes the check on its text. -/
theorem canonicalPlace (hreal : d.canonicalPlace root = .ok home) (hi : (d'.item? (place ++ (rel ++ [n]))).isSome) :
    ∃ q, d'.canonicalPlace ((rel ++ [n]).foldl Path.join root) = .ok q ∧ q.path.startsWithText home.path := by
  have hhome := h.home_eq hreal (hs.pruned.within.isFolderAt (hs.tree.isFolderAt_above (rel ++ [n]) (by simp) hi))
  have hbelow : (Place.path (place ++ (rel ++ [n]))).startsWithText home.path := by
    rw [hhome]
    exact Place.startsWithText_path h.ne_root _
  cases hlink : d'.isLinkAt (place ++ (rel ++ [n])) with
  | false => exact ⟨_, by rw [Disk.canonicalPlace, h.realPlace hs hway hi hlink], hbelow⟩
  | true =>
    have hplain := plain hs hi
    have hfolder : d'.isFolderAt (place ++ rel) := by
      rw [← List.append_assoc] at hi
      exact hs.tree.parents hi
    obtain ⟨mode, hm⟩ := isFolderAt_iff.mp hfolder
    have habove : d'.realPlace (rel.foldl Path.join root) = .ok (place ++ rel) :=
      h.realPlace hs hway (by simp [hm]) (by simp [isLinkAt, node?, hm])
    obtain ⟨abs, habs⟩ := h.absolute hs hway fun m hm => hplain m (List.mem_append_left _ hm)
    have hmissing {f : Fault} (hno : d'.realPlace ((rel ++ [n]).foldl Path.join root) = .error f)
        (hf : f.isNotFound = true) : ∃ q, d'.canonicalPlace ((rel ++ [n]).foldl Path.join root) = .ok q ∧
          q.path.startsWithText home.path := by
      rw [List.foldl_append, List.foldl_cons, List.foldl_nil] at hno ⊢
      refine ⟨_, canonicalPlace_join hs.tree habs habove hfolder (hplain n (by simp)) hno hf, ?_⟩
      rwa [List.append_assoc]
    obtain ⟨folder, m, hnamed, -⟩ := h.names_below hs hway hi
    rcases h.realPlace_shrunk hs (folderOf_ok.mp hnamed).1 with hsame | hno
    · have hold : d.isLinkAt (place ++ (rel ++ [n])) := by
        obtain ⟨item, hitem⟩ := Option.isSome_iff_exists.mp hi
        rwa [← (hs.pruned.within.sameAt hitem).isLinkAt] at hlink
      rcases h.links (rel ++ [n]) home (by simp) hold hreal with ⟨q, hq, hstarts⟩ | ⟨f, hno, hf⟩
      · exact ⟨q, by rw [Disk.canonicalPlace, hsame, hq], hstarts⟩
      · exact hmissing (hsame.trans hno) hf
    · exact hmissing hno rfl

end Encloses

end Disk

-- ---------------------------------------------------------------------------
-- The deletion
-- ---------------------------------------------------------------------------

namespace Session

variable {first : Disk} {p root front : Path} {place home here : Place} {rel : List Name} {s : Session}
  {delete : Path → Session → Bool × Session}

/-- The step succeeds, and takes away the entry at the place with all below it. -/
structure Clears (place : Place) (s : Session) (result : Bool × Session) : Prop where
  done : result.1 = true
  tree : result.2.disk.WellFormed
  pruned : Disk.Pruned (place <+: ·) s.disk result.2.disk
  gone : result.2.disk.item? place = none

theorem removed_clears {mid : Session} {result : Except Fault Disk} (hresult : result = .ok (mid.disk.eraseItem place))
    (htree : (mid.disk.eraseItem place).WellFormed) (hne : place ≠ [])
    (hpruned : Disk.Pruned (place <+: ·) s.disk mid.disk) : Clears place s (mid.removed p result) := by
  subst hresult
  refine ⟨rfl, htree, hpruned.trans (.eraseItem hne List.prefix_rfl), ?_⟩
  show (mid.disk.eraseItem place).item? place = none
  rw [Disk.item?_eraseItem _ _ _ hne, if_pos rfl]

theorem Clears.below {result : Bool × Session} {n : Name} (h : Clears (here ++ [n]) s result) :
    Disk.Pruned (fun q => here <+: q ∧ here ≠ q) s.disk result.2.disk := by
  refine h.pruned.mono fun q hq => ⟨(List.prefix_append _ _).trans hq, ?_⟩
  rintro rfl
  exact absurd hq.length_le (by simp)

theorem Clears.sibling {result : Bool × Session} {m n : Name} (h : Clears (here ++ [n]) s result) (hne : n ≠ m) :
    result.2.disk.item? (here ++ [m]) = s.disk.item? (here ++ [m]) := by
  refine (h.pruned.items (here ++ [m])).resolve_right fun hlost => hne ?_
  simpa using hlost.2.eq_of_length (by simp)

theorem Clears.shrunk {result : Bool × Session} {n : Name} (h : Clears (here ++ [n]) s result)
    (hs : Disk.Shrunk place first s.disk) (hhere : place <+: here) : Disk.Shrunk place first result.2.disk := by
  refine ⟨h.tree, hs.pruned.trans (h.below.mono fun q hq => ⟨hhere.trans hq.1, ?_⟩)⟩
  rintro rfl
  exact hq.2 (hq.1.eq_of_length_le hhere.length_le)

theorem deleteEach_clears (hhere : place <+: here)
    (hchild : ∀ n s, Disk.Shrunk place first s.disk → (s.disk.item? (here ++ [n])).isSome →
      (∃ real, s.disk.canonicalize (p.join n) = .ok real ∧ real.startsWithText front) ∧
        Clears (here ++ [n]) s (delete (p.join n) s))
    (names : List Name) (hnodup : names.Nodup) (s : Session) (hs : Disk.Shrunk place first s.disk)
    (hthere : ∀ n ∈ names, (s.disk.item? (here ++ [n])).isSome) :
    (deleteEach front delete p names s).1 = true ∧ Disk.Shrunk place first (deleteEach front delete p names s).2.disk ∧
      Disk.Pruned (fun q => here <+: q ∧ here ≠ q) s.disk (deleteEach front delete p names s).2.disk ∧
      ∀ n ∈ names, (deleteEach front delete p names s).2.disk.item? (here ++ [n]) = none := by
  induction names generalizing s with
  | nil => exact ⟨rfl, hs, .refl _, by simp⟩
  | cons n names ih =>
    obtain ⟨hnew, hrest⟩ := List.nodup_cons.mp hnodup
    have hnoted : (s.noteResolution (p.join n)).disk = s.disk := disk_noteResolution s _
    obtain ⟨⟨real, hreal, hstarts⟩, -⟩ := hchild n s hs (hthere n List.mem_cons_self)
    have hclears := (hchild n (s.noteResolution (p.join n)) (by rwa [hnoted])
      (by rw [hnoted]; exact hthere n List.mem_cons_self)).2
    rw [deleteEach]
    simp only [Session.canonicalize, hreal, hstarts, Bool.not_true, Bool.false_eq_true, if_false]
    revert hclears
    generalize delete (p.join n) (s.noteResolution (p.join n)) = result
    obtain ⟨done, after⟩ := result
    rintro ⟨hdone, htree, hpruned, hgone⟩
    obtain rfl : done = true := hdone
    rw [hnoted] at hpruned
    have hclears : Clears (here ++ [n]) s (true, after) := ⟨rfl, htree, hpruned, hgone⟩
    have hstill : ∀ m ∈ names, (after.disk.item? (here ++ [m])).isSome := by
      intro m hm
      rw [hclears.sibling (by rintro rfl; exact hnew hm)]
      exact hthere m (List.mem_cons_of_mem _ hm)
    obtain ⟨hok, hshrunk, hpruned', hgone'⟩ := ih hrest after (hclears.shrunk hs hhere) hstill
    refine ⟨hok, hshrunk, hclears.below.trans hpruned', fun m hm => ?_⟩
    rcases List.mem_cons.mp hm with rfl | hm
    · rcases hpruned'.items (here ++ [m]) with hsame | ⟨hnone, -⟩
      · exact hsame.trans hgone
      · exact hnone
    · exact hgone' m hm

theorem names_eq_nil {d d' : Disk} (hw : d'.Within d) (hgone : ∀ n ∈ d.names here, d'.item? (here ++ [n]) = none) :
    d'.names here = [] := by
  refine List.eq_nil_iff_forall_not_mem.mpr fun n hn => ?_
  obtain ⟨item, hitem⟩ := Option.isSome_iff_exists.mp ((Disk.mem_names_iff _ _ _).mp hn)
  have hnone := hgone n ((Disk.mem_names_iff _ _ _).mpr (by rw [hw.item hitem]; rfl))
  rw [hitem] at hnone
  cases hnone

section Clearing

variable (h : first.Encloses root place) (hway : (first.emptied place).lstat root = .ok place)
  (hs : Disk.Shrunk place first s.disk) {depth : Nat}

include h hway hs

theorem leaf_clears (hloose : first.isFixedAt (place ++ rel) = false) (hi : (s.disk.item? (place ++ rel)).isSome)
    (hf : s.disk.isFolderAt (place ++ rel) = false) :
    Clears (place ++ rel) s (deleteWithin front (depth + 1) (rel.foldl Path.join root) s) := by
  have hnames := h.names_below hs hway hi
  obtain ⟨item, hitem⟩ := Option.isSome_iff_exists.mp hi
  cases item with
  | folder mode => simp [Disk.isFolderAt_of_item hitem] at hf
  | leaf id =>
    have hfix : (s.disk.node id).isFixed = false := by
      simpa [Disk.isFixedAt, Disk.node?_of_leaf (hs.pruned.within.item hitem), hs.pruned.node] using hloose
    have hunlink := hnames.unlink hs.tree hitem hfix
    rw [deleteWithin_leaf (hnames.lstat hs.tree hi) hf]
    exact removed_clears hunlink (hs.tree.unlink hunlink) (by simp [h.ne_root]) (.refl _)

theorem folder_clears (hf : s.disk.isFolderAt (place ++ rel))
    (hchild : ∀ n s', Disk.Shrunk place first s'.disk → (s'.disk.item? ((place ++ rel) ++ [n])).isSome →
      (∃ real, s'.disk.canonicalize ((rel.foldl Path.join root).join n) = .ok real ∧ real.startsWithText front) ∧
        Clears ((place ++ rel) ++ [n]) s' (deleteWithin front depth ((rel.foldl Path.join root).join n) s')) :
    Clears (place ++ rel) s (deleteWithin front (depth + 1) (rel.foldl Path.join root) s) := by
  obtain ⟨mode, hm⟩ := Disk.isFolderAt_iff.mp hf
  have hi : (s.disk.item? (place ++ rel)).isSome := by simp [hm]
  have hl := (h.names_below hs hway hi).lstat hs.tree hi
  obtain ⟨hdone, hshrunk, hpruned, hgone⟩ := deleteEach_clears (List.prefix_append place rel) hchild
    (s.disk.names (place ++ rel)) (Disk.nodup_names _ _) s hs fun n hn => (Disk.mem_names_iff _ _ _).mp hn
  rw [deleteWithin_folder hl hf]
  revert hdone hshrunk hpruned hgone
  generalize deleteEach front (deleteWithin front depth) (rel.foldl Path.join root)
    (s.disk.names (place ++ rel)) s = result
  obtain ⟨done, mid⟩ := result
  rintro hdone hshrunk hpruned hgone
  obtain rfl : done = true := hdone
  have hstill : mid.disk.item? (place ++ rel) = s.disk.item? (place ++ rel) :=
    (hpruned.items _).resolve_right fun hlost => hlost.2.2 rfl
  have hfolder : mid.disk.isFolderAt (place ++ rel) := by rwa [Disk.isFolderAt, hstill]
  have hremove := (h.names_below hshrunk hway (by rwa [hstill])).removeFolder hshrunk.tree hfolder
    (names_eq_nil hpruned.within hgone)
  exact removed_clears hremove (hshrunk.tree.removeFolder hremove) (by simp [h.ne_root])
    (hpruned.mono fun q hq => hq.1)

end Clearing

/-- As long as the way to the root stays and nothing in the tree is kept, each entry of it is cleared. -/
theorem deleteWithin_clears (h : first.Encloses root place) (hreal : first.canonicalPlace root = .ok home)
    (hloose : ∀ rel, first.isFixedAt (place ++ rel) = false)
    (hway : (first.emptied place).lstat root = .ok place) (depth : Nat) (rel : List Name) (s : Session)
    (hs : Disk.Shrunk place first s.disk) (hi : (s.disk.item? (place ++ rel)).isSome)
    (hdepth : pathLimit < depth + Text.utf8Size (rel.foldl Path.join root)) :
    Clears (place ++ rel) s (deleteWithin home.path depth (rel.foldl Path.join root) s) := by
  induction depth generalizing rel s with
  | zero =>
    have hshort := (h.short rel (Disk.Encloses.isSome hs hi)).1
    omega
  | succ depth ih =>
    cases hf : s.disk.isFolderAt (place ++ rel) with
    | false => exact leaf_clears h hway hs (hloose rel) hi hf
    | true =>
      refine folder_clears h hway hs hf fun n s' hs' hi' => ?_
      have hjoin : (rel.foldl Path.join root).join n = (rel ++ [n]).foldl Path.join root := by simp
      rw [List.append_assoc] at hi' ⊢
      have hplain := Disk.Encloses.plain hs' hi'
      -- Each name makes the path longer, and the limit on its length bounds the depth.
      have hsize : Text.utf8Size (rel.foldl Path.join root) + 1 ≤ Text.utf8Size ((rel.foldl Path.join root).join n) :=
        Path.length_le_utf8Size_foldl_join _ fun m hm => hplain m (List.mem_append_right rel hm)
      rw [hjoin] at hsize ⊢
      obtain ⟨q, hq, hstarts⟩ := h.canonicalPlace hs' hway hreal hi'
      exact ⟨⟨q.path, map_eq_ok.mpr ⟨q, hq, rfl⟩, hstarts⟩, ih (rel ++ [n]) s' hs' hi' (by omega)⟩

-- ---------------------------------------------------------------------------
-- The whole tree
-- ---------------------------------------------------------------------------

theorem deleteTree_eq (h : s.disk.canonicalPlace root = .ok home) :
    (s.deleteTree root).1 = (deleteWithin home.path pathLimit root (s.noteResolution root)).1 := by
  simp only [deleteTree, Session.canonicalize, Disk.canonicalize, h, Except.map]
  generalize deleteWithin home.path pathLimit root (s.noteResolution root) = result
  obtain ⟨_ | _, after⟩ := result <;> rfl

/-- A folder that has been deleted was still reached by its path when nothing was left in it. -/
theorem lstat_of_cleared {depth : Nat} (h : first.Encloses root place) (hf : first.isFolderAt place)
    (hsame : s.disk = first) (hdone : (deleteWithin home.path (depth + 1) root s).1 = true) :
    (first.emptied place).lstat root = .ok place := by
  subst hsame
  rw [deleteWithin_folder h.there hf] at hdone
  have hpruned := deleteEach_prunes home.path h.there hf
    (fun child s' hw hcwd => deleteWithin_prunes home.path h.tree depth child s' hw hcwd) (s.disk.names place)
    (fun n hn => h.tree.plain_of_mem_names hn) s (.refl _) rfl
  have htree := deleteEach_keeps home.path root (deleteWithin_keeps Disk.outlivesRemoval_wellFormed home.path depth)
    (s.disk.names place) s h.tree
  revert hdone hpruned htree
  generalize deleteEach home.path (deleteWithin home.path depth) root (s.disk.names place) s = result
  obtain ⟨_ | _, mid⟩ := result
  · exact fun hdone => (nomatch hdone)
  intro hdone hpruned htree
  have hshrunk : Disk.Shrunk place s.disk mid.disk := ⟨htree, hpruned⟩
  cases hremove : mid.disk.removeFolder root with
  | error f => simp [hremove, removed] at hdone
  | ok after =>
    obtain ⟨folder, n, slash, hfolder, -, hthere, hempty, -⟩ := Disk.removeFolder_ok.mp hremove
    obtain ⟨names, -, hsteps⟩ := h.named
    obtain rfl := Disk.slash_of_names hsteps hfolder
    obtain ⟨mode, hm⟩ := Disk.isFolderAt_iff.mp hthere
    have hl := Disk.lstat_of_folderOf htree hfolder (by simp [hm])
    have hplace : place = folder ++ [n] := Disk.eq_of_lstat (hpruned.within.folderOf hpruned.cwd.symm hfolder) h.there
    rw [← hplace] at hl hempty
    exact (hshrunk.within_emptied fun below hne => htree.item?_below_empty hempty hne).seek hpruned.cwd.symm hl

theorem lstat_of_deleted (h : s.disk.Encloses root place) (hreal : s.disk.canonicalPlace root = .ok home)
    (hdone : (s.deleteTree root).1 = true) : (s.disk.emptied place).lstat root = .ok place := by
  cases hf : s.disk.isFolderAt place with
  | false =>
    have hwithin := (Disk.Shrunk.refl h.tree place).within_emptied fun below hne => h.tree.item?_below hf hne
    exact hwithin.seek rfl h.there
  | true =>
    obtain ⟨depth, hdepth⟩ : ∃ depth, pathLimit = depth + 1 := ⟨4095, rfl⟩
    rw [deleteTree_eq hreal, hdepth] at hdone
    exact lstat_of_cleared h hf (disk_noteResolution s root) hdone

theorem gone_of_deleted (h : s.disk.Encloses root place) (hreal : s.disk.canonicalPlace root = .ok home)
    (hdone : (s.deleteTree root).1 = true) {q : Place} (hq : place <+: q) :
    (s.deleteTree root).2.disk.item? q = none := by
  refine (deleteTree_keeps Disk.outlivesRemoval_wellFormed s root h.tree).item?_at_or_below ?_ hq
  rcases deleteTree_prunes h.tree hreal with ⟨hfalse, -⟩ | ⟨place', hl, -, hiff⟩
  · simp [hfalse] at hdone
  · obtain rfl : place = place' := Except.ok.inj (h.there.symm.trans hl)
    exact hiff.mp hdone

theorem loose_of_gone {q : Place} (hgone : (s.deleteTree root).2.disk.item? q = none) :
    s.disk.isFixedAt q = false := by
  by_contra hfixed
  rw [Bool.not_eq_false] at hfixed
  have hkept := deleteTree_keeps (Disk.outlivesRemoval_isFixedAt q) s root hfixed
  simp [Disk.isFixedAt, Disk.node?, hgone] at hkept

theorem deleteTree_clears (h : s.disk.Encloses root place) (hreal : s.disk.canonicalPlace root = .ok home)
    (hloose : ∀ q, place <+: q → s.disk.isFixedAt q = false) (hway : (s.disk.emptied place).lstat root = .ok place) :
    (s.deleteTree root).1 = true := by
  have hnoted : (s.noteResolution root).disk = s.disk := disk_noteResolution s root
  have hsize : 0 < Text.utf8Size root :=
    Text.utf8Size_pos (Disk.checkPath_ok (Disk.seek_ok.mp h.there).1).2.1
  rw [deleteTree_eq hreal]
  refine (deleteWithin_clears h hreal (fun rel => hloose _ (List.prefix_append place rel)) hway pathLimit []
    (s.noteResolution root) ?_ ?_ ?_).done
  · rw [hnoted]
    exact .refl h.tree place
  · rw [hnoted, List.append_nil]
    exact (Disk.seek_ok.mp h.there).2.2
  · rw [List.foldl_nil]
    omega

/-- A tree that keeps its links to itself is deleted completely exactly if its root resolves, none of it is a kernel
record and the root would still be reached with nothing left below it. Folders are listed in the order of the
disk's table, so the disks cover every order. -/
theorem deleteTree_complete_iff (s : Session) (root : Path) (h : s.disk.Encloses root place) :
    ((s.deleteTree root).1 = true ↔ (s.disk.canonicalize root).isOk ∧
      (∀ q, place <+: q → s.disk.isFixedAt q = false) ∧ (s.disk.emptied place).lstat root = .ok place) ∧
    ((s.deleteTree root).1 = true → ∀ q, place <+: q → (s.deleteTree root).2.disk.item? q = none) := by
  have hresolves : (s.disk.canonicalize root).isOk = (s.disk.canonicalPlace root).isOk := by
    rw [Disk.canonicalize]
    cases s.disk.canonicalPlace root <;> rfl
  rw [hresolves]
  cases hreal : s.disk.canonicalPlace root with
  | error f => simp [(deleteTree_of_error hreal).1, Except.isOk, Except.toBool]
  | ok home =>
    refine ⟨⟨fun hdone => ⟨rfl, fun q hq => ?_, lstat_of_deleted h hreal hdone⟩, ?_⟩, fun hdone q hq => ?_⟩
    · exact loose_of_gone (gone_of_deleted h hreal hdone hq)
    · rintro ⟨-, hloose, hway⟩
      exact deleteTree_clears h hreal hloose hway
    · exact gone_of_deleted h hreal hdone hq

/-- A folder that is reached through a link, with a file in a folder, a link to the file that is listed behind it,
a link back up and one that leads nowhere. -/
def linkedTree : Session where
  world.disk := {
    items := [
      ([['w']], .leaf 1),
      ([['d']], .folder newFolderMode),
      ([['d'], ['s']], .folder newFolderMode),
      ([['d'], ['s'], ['f']], .leaf 2),
      ([['d'], ['s'], ['u']], .leaf 3),
      ([['d'], ['t']], .leaf 4),
      ([['d'], ['x']], .leaf 5)]
    nodes := [(1, .link ['.']), (2, .file newFileMode [7]), (3, .link "../../d".toList), (4, .link "s/f".toList),
      (5, .link ['n'])]
    cwd := [] }

theorem linkedTree_deleted : linkedTree.disk.Encloses "w/d".toList [['d']] ∧
    (linkedTree.disk.canonicalize "w/d".toList).isOk ∧
    (∀ q, [['d']] <+: q → linkedTree.disk.isFixedAt q = false) ∧
    (linkedTree.disk.emptied [['d']]).lstat "w/d".toList = .ok [['d']] ∧
    (linkedTree.deleteTree "w/d".toList).1 = true ∧
    ∀ q, [['d']] <+: q → (linkedTree.deleteTree "w/d".toList).2.disk.item? q = none := by
  have h : linkedTree.disk.Encloses "w/d".toList [['d']] :=
    .of_items (.of_items (by decide)) ⟨[['w'], ['d']], by decide, by decide⟩ (by decide +kernel) (by decide)
      (by decide +kernel)
  have hreal : (linkedTree.disk.canonicalize "w/d".toList).isOk := by decide +kernel
  have hloose : ∀ q, [['d']] <+: q → linkedTree.disk.isFixedAt q = false := fun q _ =>
    Disk.isFixedAt_of_nodes (by decide) q
  have hway : (linkedTree.disk.emptied [['d']]).lstat "w/d".toList = .ok [['d']] := by decide +kernel
  obtain ⟨hiff, hgone⟩ := deleteTree_complete_iff linkedTree "w/d".toList h
  have hdone := hiff.mpr ⟨hreal, hloose, hway⟩
  exact ⟨h, hreal, hloose, hway, hdone, hgone hdone⟩

def detour : Session where
  world.disk := {
    items := [
      ([['a']], .folder newFolderMode),
      ([['a', 'b']], .folder newFolderMode),
      ([['a'], ['l']], .leaf 1),
      ([['a', 'b'], ['k']], .leaf 2)]
    nodes := [(1, .link "/ab".toList), (2, .link ['/'])]
    cwd := [] }

def stubborn : Session where
  world.disk := {
    items := [([['r']], .leaf 1), ([['x']], .leaf 2)]
    nodes := [(1, .kernel 0o444 [7]), (2, .link ['x'])]
    cwd := [] }

/-- Where the way to the root leads through a link below it, the deletion of that link cuts the way off, and the
root stays. A kernel record stays, and so does a root that does not resolve. -/
theorem deleteTree_cut_off :
    (detour.disk.Encloses "/a/l/k/a".toList [['a']] ∧ (detour.deleteTree "/a/l/k/a".toList).1 = false ∧
      (detour.deleteTree "/a/l/k/a".toList).2.disk.item? [['a']] = some (.folder newFolderMode)) ∧
    (stubborn.disk.Encloses ['r'] [['r']] ∧ (stubborn.deleteTree ['r']).1 = false ∧
      (stubborn.deleteTree ['r']).2.disk.item? [['r']] = some (.leaf 1)) ∧
    (stubborn.disk.Encloses ['x'] [['x']] ∧ (stubborn.deleteTree ['x']).1 = false ∧
      (stubborn.deleteTree ['x']).2.disk.item? [['x']] = some (.leaf 2)) := by
  refine ⟨⟨?_, by decide +kernel, by decide +kernel⟩, ⟨?_, by decide +kernel, by decide +kernel⟩, ?_,
    by decide +kernel, by decide +kernel⟩
  · exact .of_items (.of_items (by decide)) ⟨[['a'], ['l'], ['k'], ['a']], by decide, by decide⟩ (by decide +kernel)
      (by decide) (by decide +kernel)
  · exact .of_items (.of_items (by decide)) ⟨[['r']], by decide, by decide⟩ (by decide +kernel) (by decide)
      (by decide +kernel)
  · exact .of_items (.of_items (by decide)) ⟨[['x']], by decide, by decide⟩ (by decide +kernel) (by decide)
      (by decide +kernel)

end Session

end SafeFiles
