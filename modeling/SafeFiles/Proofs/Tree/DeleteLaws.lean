import SafeFiles.Proofs.Disk.EntryLaws
import SafeFiles.Tree.Delete

/-!
# A deletion stays below its root

A deletion only takes entries away, so every path it forms on the way leads on
the shrunken disk where it led on the first one, or nowhere. The path of a child
is a folder's path with one name more and names the child's own entry, whatever
the text resolves to; the entries removed are therefore the root's and those
physically below it (`deleteWithin_prunes`).
-/

namespace SafeFiles

namespace Disk

variable {d d' d'' first : Disk} {p : Path} {place q home : Place} {n : Name} {id : NodeId}
  {gone lost : Place → Prop}

-- ---------------------------------------------------------------------------
-- Taking entries away
-- ---------------------------------------------------------------------------

/-- All that `d'` differs in from `d` is that entries are missing, at places that are `gone`. -/
structure Pruned (gone : Place → Prop) (d d' : Disk) : Prop where
  items : ∀ q, d'.item? q = d.item? q ∨ d'.item? q = none ∧ gone q
  nodes : d'.nodes = d.nodes
  cwd : d'.cwd = d.cwd

theorem Pruned.refl (d : Disk) : Pruned gone d d := ⟨fun _ => .inl rfl, rfl, rfl⟩

theorem Pruned.trans (h : Pruned gone d d') (h' : Pruned gone d' d'') : Pruned gone d d'' := by
  refine ⟨fun q => ?_, h'.nodes.trans h.nodes, h'.cwd.trans h.cwd⟩
  rcases h'.items q with hq | hq
  · rw [hq]
    exact h.items q
  · exact .inr hq

theorem Pruned.mono (h : Pruned gone d d') (himp : ∀ q, gone q → lost q) : Pruned lost d d' :=
  ⟨fun q => (h.items q).imp id (And.imp_right (himp q)), h.nodes, h.cwd⟩

theorem Pruned.node (h : Pruned gone d d') (id : NodeId) : d'.node id = d.node id := by
  simp [Disk.node, h.nodes]

theorem Pruned.within (h : Pruned gone d d') : d'.Within d := by
  refine ⟨fun {q _} hi => ?_, fun _ => (h.node _).symm⟩
  rcases h.items q with hq | ⟨hq, -⟩
  · rwa [← hq]
  · simp [hq] at hi

theorem Pruned.eraseItem (hne : place ≠ []) (h : gone place) : Pruned gone d (d.eraseItem place) := by
  refine ⟨fun q => ?_, rfl, rfl⟩
  rw [item?_eraseItem d place q hne]
  split
  · rename_i hq
    exact .inr ⟨rfl, hq ▸ h⟩
  · exact .inl rfl

theorem WellFormed.unlink (hd : d.WellFormed) (h : d.unlink p = .ok d') : d'.WellFormed := by
  obtain ⟨folder, n, id, -, -, hi, -, rfl⟩ := unlink_ok.mp h
  exact hd.eraseItem (by simp) fun below hne => hd.item?_below (isFolderAt_of_leaf hi) hne

theorem WellFormed.removeFolder (hd : d.WellFormed) (h : d.removeFolder p = .ok d') : d'.WellFormed := by
  obtain ⟨folder, n, slash, -, -, -, hempty, rfl⟩ := removeFolder_ok.mp h
  exact hd.eraseItem (by simp) fun below hne => hd.item?_below_empty hempty hne

/-- The removal of a single entry never makes it false. -/
def OutlivesRemoval (P : Disk → Prop) : Prop :=
  ∀ {d p d'}, P d → d.unlink p = .ok d' ∨ d.removeFolder p = .ok d' → P d'

theorem outlivesRemoval_wellFormed : OutlivesRemoval WellFormed :=
  fun hd h => h.elim hd.unlink hd.removeFolder

theorem outlivesRemoval_nodes (nodes : Table NodeId Node) : OutlivesRemoval (·.nodes = nodes) := by
  rintro d p d' hd (h | h)
  · obtain ⟨folder, n, id, -, -, -, -, rfl⟩ := unlink_ok.mp h
    exact hd
  · obtain ⟨folder, n, slash, -, -, -, -, rfl⟩ := removeFolder_ok.mp h
    exact hd

theorem outlivesRemoval_isFixedAt (q : Place) : OutlivesRemoval (·.isFixedAt q) := by
  have hother {d : Disk} {place : Place} (hne : place ≠ []) (hfixed : d.isFixedAt q) (hq : place ≠ q) :
      (d.eraseItem place).isFixedAt q := by
    rw [isFixedAt, node?, item?_eraseItem d place q hne, if_neg hq]
    exact hfixed
  rintro d p d' hfixed (h | h)
  · obtain ⟨folder, n, id, -, -, hi, hloose, rfl⟩ := unlink_ok.mp h
    refine hother (by simp) hfixed ?_
    rintro rfl
    simp [isFixedAt, node?_of_leaf hi, hloose] at hfixed
  · obtain ⟨folder, n, slash, -, -, hf, -, rfl⟩ := removeFolder_ok.mp h
    refine hother (by simp) hfixed ?_
    rintro rfl
    obtain ⟨mode, hm⟩ := isFolderAt_iff.mp hf
    simp [isFixedAt, node?, hm] at hfixed

-- ---------------------------------------------------------------------------
-- What a path names while the tree shrinks
-- ---------------------------------------------------------------------------

theorem eq_erase_of_unlink (hw : d.Within first) (hcwd : first.cwd = d.cwd)
    (hl : first.lstat p = .ok place) (h : d.unlink p = .ok d') :
    place ≠ [] ∧ d' = d.eraseItem place := by
  obtain ⟨folder, n, id, hf, -, -, -, rfl⟩ := unlink_ok.mp h
  have hplace := eq_of_lstat (hw.folderOf hcwd hf) hl
  exact ⟨by simp [hplace], by rw [hplace]⟩

theorem eq_erase_of_removeFolder (hw : d.Within first) (hcwd : first.cwd = d.cwd)
    (hl : first.lstat p = .ok place) (h : d.removeFolder p = .ok d') :
    place ≠ [] ∧ d' = d.eraseItem place := by
  obtain ⟨folder, n, slash, hf, -, hfolder, -, rfl⟩ := removeFolder_ok.mp h
  have hplace := eq_of_lstat_folder (hw.folderOf hcwd hf) (hw.isFolderAt hfolder) hl
  exact ⟨by simp [hplace], by rw [hplace]⟩

theorem route_of_lstat_folder (hl : d.lstat p = .ok place) (hf : d.isFolderAt place) :
    d.Route .follow linkLimit (d.start p) p.steps place :=
  (seek_ok.mp hl).2.1.follow_of_look hf

theorem eq_of_lstat_join (hl : d.lstat p = .ok place) (hf : d.isFolderAt place) (hn : n.IsPlain)
    (hc : d.lstat (p.join n) = .ok q) : q = place ++ [n] := by
  have hbare := (route_of_lstat_folder hl hf).bare
  obtain ⟨-, hr, -⟩ := seek_ok.mp hc
  rw [Path.steps_join p hn, start_join d p hn] at hr
  obtain ⟨mid, fewer, -, hmid, hlast, -⟩ := hr.split (by simp)
  obtain rfl := hmid.unique hbare
  cases hlast with
  | folder _ _ _ hdone => cases hdone; rfl
  | link _ _ _ _ hlook _ => exact absurd rfl (hlook rfl)
  | leaf _ _ _ => rfl

theorem realPlace_of_canonicalPlace (hl : d.lstat p = .ok place) (hf : d.isFolderAt place)
    (h : d.canonicalPlace p = .ok home) : d.realPlace p = .ok place := by
  obtain ⟨hnul, hne, -⟩ := checkPath_ok (seek_ok.mp hl).1
  have hw := walk_found.mpr (route_of_lstat_folder hl hf)
  have hreal : d.realPlace p = if pathLimit ≤ Text.utf8Size place.path then
      .error (.system .nameTooLong) else .ok place := by
    simp [realPlace, hnul, hne, hw]
  rw [hreal]
  split
  · rename_i hlong
    -- A real path that is too long is no missing path, so nothing is resolved through an ancestor.
    rw [canonicalPlace, hreal, if_pos hlong] at h
    cases h
  · rfl

end Disk

-- ---------------------------------------------------------------------------
-- The deletion
-- ---------------------------------------------------------------------------

namespace Session

variable {first : Disk} {p front : Path} {place : Place} {s : Session} {P : Disk → Prop}
  {delete : Path → Session → Bool × Session}

theorem deleteWithin_leaf {depth : Nat} (hl : s.disk.lstat p = .ok place) (hf : s.disk.isFolderAt place = false) :
    deleteWithin front (depth + 1) p s = s.removed p (s.disk.unlink p) := by
  rw [deleteWithin, hl]
  simp [hf]

theorem deleteWithin_folder {depth : Nat} (hl : s.disk.lstat p = .ok place) (hf : s.disk.isFolderAt place) :
    deleteWithin front (depth + 1) p s =
      match deleteEach front (deleteWithin front depth) p (s.disk.names place) s with
      | (false, s) => (false, s)
      | (true, s) => s.removed p (s.disk.removeFolder p) := by
  have hs : s.disk.stat p = .ok place :=
    Disk.seek_ok.mpr ⟨(Disk.seek_ok.mp hl).1, Disk.route_of_lstat_folder hl hf, (Disk.seek_ok.mp hl).2.2⟩
  rw [deleteWithin, hl]
  rcases h : deleteEach front (deleteWithin front depth) p (s.disk.names place) s with ⟨_ | _, after⟩
  · simp [hf, Disk.list_of_stat hs hf, h]
  · simp [hf, Disk.list_of_stat hs hf, h]

theorem removed_keeps {removal : Except Fault Disk} (hs : P s.disk) (hafter : ∀ d, removal = .ok d → P d) :
    P (s.removed p removal).2.disk := by
  cases removal with
  | error f => exact hs
  | ok d => exact hafter d rfl

theorem deleteEach_keeps (front p : Path) (hdelete : ∀ child s, P s.disk → P (delete child s).2.disk)
    (names : List Name) (s : Session) (hs : P s.disk) : P (deleteEach front delete p names s).2.disk := by
  induction names generalizing s with
  | nil => exact hs
  | cons n names ih =>
    simp only [deleteEach, Session.canonicalize]
    cases s.disk.canonicalize (p.join n) with
    | error f => simpa using hs
    | ok real =>
      simp only
      split
      · exact ih _ (by simpa using hs)
      · have hchild := hdelete (p.join n) (s.noteResolution (p.join n)) (by simpa using hs)
        revert hchild
        generalize delete (p.join n) (s.noteResolution (p.join n)) = result
        obtain ⟨_ | _, after⟩ := result
        · exact id
        · exact ih after

/-- What no single removal changes, a deletion that stops anywhere leaves as it is. -/
theorem deleteWithin_keeps (hP : Disk.OutlivesRemoval P) (front : Path) (depth : Nat) (p : Path) (s : Session)
    (hs : P s.disk) : P (deleteWithin front depth p s).2.disk := by
  induction depth generalizing p s with
  | zero => exact hs
  | succ depth ih =>
    cases hl : s.disk.lstat p with
    | error f =>
      rw [deleteWithin, hl]
      exact hs
    | ok place =>
      cases hf : s.disk.isFolderAt place with
      | false =>
        rw [deleteWithin_leaf hl hf]
        exact removed_keeps hs fun d h => hP hs (.inl h)
      | true =>
        rw [deleteWithin_folder hl hf]
        have heach := deleteEach_keeps front p ih (s.disk.names place) s hs
        revert heach
        generalize deleteEach front (deleteWithin front depth) p (s.disk.names place) s = result
        obtain ⟨_ | _, mid⟩ := result
        · exact id
        · exact fun hmid => removed_keeps hmid fun d h => hP hmid (.inr h)

theorem deleteTree_keeps (hP : Disk.OutlivesRemoval P) (s : Session) (p : Path) (hs : P s.disk) :
    P (s.deleteTree p).2.disk := by
  simp only [deleteTree, Session.canonicalize]
  cases s.disk.canonicalize p with
  | error f => simpa using hs
  | ok front =>
    have hwithin := deleteWithin_keeps hP front pathLimit p (s.noteResolution p) (by simpa using hs)
    simp only
    revert hwithin
    generalize deleteWithin front pathLimit p (s.noteResolution p) = result
    obtain ⟨_ | _, after⟩ := result
    · exact id
    · exact id

/-- What a deletion at `p` does to a tree that has been shrinking from `first`: nothing, and it fails; or
it removes from the entry that `p` looked at downwards, and succeeds if that entry goes too. -/
def Deletes (first : Disk) (p : Path) (s : Session) (result : Bool × Session) : Prop :=
  result.1 = false ∧ result.2.disk = s.disk ∨
    ∃ place, first.lstat p = .ok place ∧ Disk.Pruned (place <+: ·) s.disk result.2.disk ∧
      (result.1 = true ↔ result.2.disk.item? place = none)

/-- The last step of a deletion: the entry itself goes, or nothing changes. -/
theorem removed_deletes {d : Disk} {removal : Except Fault Disk} (hl : first.lstat p = .ok place)
    (hs : (s.disk.item? place).isSome) (hp : Disk.Pruned (place <+: ·) d s.disk)
    (hr : ∀ after, removal = .ok after → place ≠ [] ∧ after = s.disk.eraseItem place) :
    (∃ place, first.lstat p = .ok place ∧
      Disk.Pruned (place <+: ·) d (s.removed p removal).2.disk ∧
      ((s.removed p removal).1 = true ↔ (s.removed p removal).2.disk.item? place = none)) := by
  refine ⟨place, hl, ?_⟩
  cases removal with
  | error f =>
    refine ⟨hp, fun h => (nomatch h), fun h => ?_⟩
    simp only [removed] at h
    simp [h] at hs
  | ok after =>
    obtain ⟨hne, rfl⟩ := hr after rfl
    refine ⟨hp.trans (.eraseItem hne List.prefix_rfl), fun _ => ?_, fun _ => rfl⟩
    show (s.disk.eraseItem place).item? place = none
    rw [Disk.item?_eraseItem _ _ _ hne, if_pos rfl]

theorem deleteEach_prunes (root : Path) (hl : first.lstat p = .ok place) (hf : first.isFolderAt place)
    (hdelete : ∀ child s, s.disk.Within first → first.cwd = s.disk.cwd →
      Deletes first child s (delete child s))
    (names : List Name) (hnames : ∀ n ∈ names, n.IsPlain) (s : Session)
    (hw : s.disk.Within first) (hcwd : first.cwd = s.disk.cwd) :
    Disk.Pruned (fun q => place <+: q ∧ place ≠ q) s.disk
      (deleteEach root delete p names s).2.disk := by
  induction names generalizing s with
  | nil => exact .refl _
  | cons n names ih =>
    have hrest := fun m hm => hnames m (List.mem_cons_of_mem n hm)
    simp only [deleteEach, Session.canonicalize]
    cases s.disk.canonicalize (p.join n) with
    | error f => simpa using Disk.Pruned.refl s.disk
    | ok real =>
      simp only
      split
      · simpa using ih hrest ((s.noteResolution (p.join n)).log _ _ _) (by simpa using hw)
          (by simpa using hcwd)
      · have hchild := hdelete (p.join n) (s.noteResolution (p.join n)) (by simpa using hw)
          (by simpa using hcwd)
        revert hchild
        generalize delete (p.join n) (s.noteResolution (p.join n)) = result
        obtain ⟨done, after⟩ := result
        intro hchild
        have hpruned : Disk.Pruned (fun q => place <+: q ∧ place ≠ q) s.disk after.disk := by
          rcases hchild with ⟨-, hsame⟩ | ⟨q, hq, hpruned, -⟩
          · simp only [disk_noteResolution] at hsame
            rw [hsame]
            exact .refl _
          · obtain rfl := Disk.eq_of_lstat_join hl hf (hnames n List.mem_cons_self) hq
            simp only [disk_noteResolution] at hpruned
            refine hpruned.mono fun q hq => ⟨(List.prefix_append _ _).trans hq, ?_⟩
            rintro rfl
            exact absurd hq.length_le (by simp)
        cases done with
        | false => exact hpruned
        | true =>
          exact hpruned.trans (ih hrest after (hpruned.within.trans hw) (hcwd.trans hpruned.cwd.symm))

theorem deleteWithin_prunes (root : Path) (hd : first.WellFormed) (depth : Nat) (p : Path) (s : Session)
    (hw : s.disk.Within first) (hcwd : first.cwd = s.disk.cwd) :
    Deletes first p s (deleteWithin root depth p s) := by
  induction depth generalizing p s with
  | zero => exact .inl ⟨rfl, rfl⟩
  | succ depth ih =>
    cases hl : s.disk.lstat p with
    | error f =>
      rw [deleteWithin, hl]
      exact .inl ⟨rfl, rfl⟩
    | ok place =>
      have hfirst : first.lstat p = .ok place := hw.seek hcwd hl
      have hs := (Disk.seek_ok.mp hl).2.2
      refine .inr ?_
      cases hf : s.disk.isFolderAt place with
      | false =>
        rw [deleteWithin_leaf hl hf]
        exact removed_deletes hfirst hs (.refl _) fun after h => Disk.eq_erase_of_unlink hw hcwd hfirst h
      | true =>
        have hplain : ∀ n ∈ s.disk.names place, n.IsPlain := fun n hn => by
          obtain ⟨item, hi⟩ := Option.isSome_iff_exists.mp ((Disk.mem_names_iff _ _ _).mp hn)
          exact (hd.names (hw.item hi) n (by simp)).1
        have heach := deleteEach_prunes root hfirst (hw.isFolderAt hf) ih (s.disk.names place) hplain s hw hcwd
        rw [deleteWithin_folder hl hf]
        generalize deleteEach root (deleteWithin root depth) p (s.disk.names place) s = result at heach ⊢
        obtain ⟨done, after⟩ := result
        have hstill : after.disk.item? place = s.disk.item? place :=
          (heach.items place).resolve_right fun h => h.2.2 rfl
        have hbelow := heach.mono (fun q hq => hq.1)
        cases done with
        | false =>
          refine ⟨place, hfirst, hbelow, fun h => (nomatch h), fun h => ?_⟩
          simp only [hstill] at h
          simp [h] at hs
        | true =>
          refine removed_deletes hfirst (by simpa [hstill] using hs) hbelow fun after' h => ?_
          exact Disk.eq_erase_of_removeFolder (heach.within.trans hw) (hcwd.trans heach.cwd.symm) hfirst h

theorem deleteTree_of_error {f : Failure} (h : s.disk.canonicalPlace p = .error f) :
    (s.deleteTree p).1 = false ∧ (s.deleteTree p).2.disk = s.disk := by
  simp [deleteTree, Session.canonicalize, Disk.canonicalize, h, Except.map]

theorem deleteTree_prunes (hd : s.disk.WellFormed) {home : Place}
    (h : s.disk.canonicalPlace p = .ok home) : Deletes s.disk p s (s.deleteTree p) := by
  have hwithin := deleteWithin_prunes home.path hd pathLimit p (s.noteResolution p)
    (by simpa using Disk.Within.refl s.disk) (by simp)
  simp only [deleteTree, Session.canonicalize, Disk.canonicalize, h, Except.map]
  revert hwithin
  generalize deleteWithin home.path pathLimit p (s.noteResolution p) = result
  obtain ⟨done, after⟩ := result
  cases done <;> simp [Deletes]

/-- Deleting a tree only removes, and only the root's own entry and what lies physically below the real
folder that the root named; it succeeds exactly if the entry was there and is gone. Folders are listed in
the order of the disk's table, so the disks cover every order. -/
theorem deleteTree_removes_only_below (s : Session) (p : Path) (hd : s.disk.WellFormed) :
    (∀ q, s.disk.SameAt (s.deleteTree p).2.disk q ∨
      (s.deleteTree p).2.disk.item? q = none ∧ (s.disk.lstat p = .ok q ∨
        ∃ home, s.disk.realPlace p = .ok home ∧ s.disk.isFolderAt home ∧ home <+: q ∧ home ≠ q)) ∧
    (s.deleteTree p).2.disk.cwd = s.disk.cwd ∧
    ((s.deleteTree p).1 = true ↔
      ∃ place, s.disk.lstat p = .ok place ∧ (s.deleteTree p).2.disk.item? place = none) := by
  have hkept {result : Bool × Session} (hfalse : result.1 = false)
      (hsame : result.2.disk = s.disk) : result.1 = true ↔
        ∃ place, s.disk.lstat p = .ok place ∧ result.2.disk.item? place = none := by
    refine ⟨fun h => by simp [hfalse] at h, ?_⟩
    rintro ⟨place, hl, hnone⟩
    have hs := (Disk.seek_ok.mp hl).2.2
    simp [← hsame, hnone] at hs
  cases hc : s.disk.canonicalPlace p with
  | error f =>
    obtain ⟨hfalse, hsame⟩ := deleteTree_of_error hc
    refine ⟨fun q => .inl ?_, by rw [hsame], hkept hfalse hsame⟩
    rw [hsame]
    exact .refl _ q
  | ok canonical =>
    rcases deleteTree_prunes hd hc with ⟨hfalse, hsame⟩ | ⟨place, hl, hpruned, htrue⟩
    · refine ⟨fun q => .inl ?_, by rw [hsame], hkept hfalse hsame⟩
      rw [hsame]
      exact .refl _ q
    refine ⟨fun q => ?_, hpruned.cwd, htrue.trans ⟨fun h => ⟨place, hl, h⟩, ?_⟩⟩
    · rcases hpruned.items q with hq | ⟨hq, hbelow⟩
      · exact .inl (.of_item hq fun id _ => hpruned.node id)
      by_cases hroot : place = q
      · exact .inr ⟨hq, .inl (hroot ▸ hl)⟩
      cases hf : s.disk.isFolderAt place with
      | true =>
        have hreal := Disk.realPlace_of_canonicalPlace hl hf hc
        exact .inr ⟨hq, .inr ⟨place, hreal, hf, hbelow, hroot⟩⟩
      | false =>
        obtain ⟨below, rfl⟩ := hbelow
        have hnone : s.disk.item? (place ++ below) = none :=
          hd.item?_below hf (by rintro rfl; simp at hroot)
        exact .inl (.of_item (hq.trans hnone.symm) fun id hi => by simp [hnone] at hi)
    · rintro ⟨place', hl', hnone⟩
      rw [hl] at hl'
      cases hl'
      exact hnone

def neighbours : Session where
  world.disk := {
    items := [
      ([['d']], .folder newFolderMode),
      ([['d'], ['f']], .leaf 1),
      ([['d'], ['l']], .leaf 2),
      ([['d', '2']], .folder newFolderMode),
      ([['d', '2'], ['k']], .leaf 1)]
    nodes := [(1, .file newFileMode [7]), (2, .link ['/', 'd', '2'])]
    cwd := [] }

/-- The link passes the test on the text of its target, and still only the link goes. -/
theorem deleteTree_spares_neighbour : neighbours.disk.WellFormed ∧
    (neighbours.deleteTree ['d', '/']).1 = true ∧
    neighbours.disk.SameAt (neighbours.deleteTree ['d', '/']).2.disk [['d', '2'], ['k']] := by
  have hd : neighbours.disk.WellFormed := .of_items (by decide)
  obtain ⟨hentries, -, -⟩ := deleteTree_removes_only_below neighbours ['d', '/'] hd
  refine ⟨hd, by decide +kernel, (hentries _).resolve_right ?_⟩
  rintro ⟨-, hroot | ⟨home, hhome, -, hbelow, -⟩⟩
  · exact absurd hroot (by decide)
  · have hreal : neighbours.disk.realPlace ['d', '/'] = .ok [['d']] := rfl
    obtain rfl : [['d']] = home := Except.ok.inj (hreal.symm.trans hhome)
    exact absurd hbelow (by decide)

end Session

end SafeFiles
