import SafeFiles.Mover
import SafeFiles.Proofs.TempLaws

/-!
# A forced move moves, or leaves everything alone

A move is decided once: by a rename that succeeds, or by the copy that is begun
when every rename has failed (`move_decided`). Up to there it changes nothing
itself, so what it does to the tree is what that rename or that copy does.

A path stands here for the entry that it names when the move is decided. It may
name another one afterwards, or none, if what moved was on its way.
-/

namespace SafeFiles

namespace Mover

/-- What decides a move: a rename that succeeds in a session, or the copy that is begun in it. -/
inductive Decision where
  | renames (begin : Session)
  | copies (begin : Session)

def Decision.begin : Decision → Session
  | .renames s => s
  | .copies s => s

def decideEach (m : Mover) (src dst : Path) : List LockerId → Session → Decision
  | [], s => .copies s
  | id :: others, s =>
    match s.ask m.lockers id src with
    | (false, s) => decideEach m src dst others s
    | (true, s) =>
      match m.rename s src dst with
      | (true, _) => .renames s
      | (false, s) => decideEach m src dst others s

def decision (m : Mover) (s : Session) (src dst : Path) : Decision :=
  match m.rename s src dst with
  | (true, _) => .renames s
  | (false, s) => m.decideEach src dst s.world.registry.ids s

variable {m : Mover} {s : Session} {src dst : Path}

-- ---------------------------------------------------------------------------
-- What decides a move
-- ---------------------------------------------------------------------------

theorem rename_true {after : Session} (h : m.rename s src dst = (true, after)) :
    s.disk.rename src dst = .ok after.disk := by
  unfold rename attempt at h
  split at h
  · rename_i d hd
    cases h
    split at hd
    · cases hd
    · exact hd
  · cases h

theorem rename_false {after : Session} (h : m.rename s src dst = (false, after)) :
    after.disk = s.disk := by
  unfold rename at h
  split at h
  · cases h
  · cases h
    rfl

theorem askEach_decided (m : Mover) (src dst : Path) (ids : List LockerId) (s : Session) :
    (∃ start, m.decideEach src dst ids s = .renames start ∧ (m.askEach src dst ids s).1 = true ∧
      start.disk.rename src dst = .ok (m.askEach src dst ids s).2.disk) ∨
    (∃ start, m.decideEach src dst ids s = .copies start ∧
      m.askEach src dst ids s = (false, start)) := by
  induction ids generalizing s with
  | nil => exact .inr ⟨s, rfl, rfl⟩
  | cons id others ih =>
    simp only [decideEach, askEach]
    rcases s.ask m.lockers id src with ⟨_ | _, asked⟩
    · exact ih asked
    · simp only
      rcases h : m.rename asked src dst with ⟨_ | _, tried⟩
      · exact ih tried
      · exact .inl ⟨asked, rfl, rfl, by simpa using rename_true h⟩

theorem move_decided (m : Mover) (s : Session) (src dst : Path) :
    (∃ start, m.decision s src dst = .renames start ∧ (m.move s src dst).1 = true ∧
      start.disk.rename src dst = .ok (m.move s src dst).2.disk) ∨
    (∃ start, m.decision s src dst = .copies start ∧
      (m.move s src dst).1 = (m.copyThenRemove start src dst).1 ∧
      (m.move s src dst).2.disk = (m.copyThenRemove start src dst).2.disk) := by
  unfold decision move
  rcases h : m.rename s src dst with ⟨_ | _, tried⟩
  · simp only
    rcases askEach_decided m src dst tried.world.registry.ids tried with
      ⟨start, hd, hdone, hr⟩ | ⟨start, hd, hdone⟩
    · refine .inl ⟨start, hd, ?_⟩
      rcases h : m.askEach src dst tried.world.registry.ids tried with ⟨_ | _, after⟩
      · simp [h] at hdone
      · rw [h] at hr
        exact ⟨rfl, hr⟩
    · refine .inr ⟨start, hd, ?_⟩
      rw [hdone]
      simp only
      rcases m.copyThenRemove start src dst with ⟨_ | _, after⟩
      · exact ⟨rfl, rfl⟩
      · exact ⟨rfl, rfl⟩
  · exact .inl ⟨s, rfl, rfl, rename_true h⟩

theorem decideEach_begin {P : Disk → Prop} (hk : ∀ id p s, P s.disk → P (m.lockers id p s).2.disk)
    (ids : List LockerId) (s : Session) (hs : P s.disk) : P (m.decideEach src dst ids s).begin.disk := by
  induction ids generalizing s with
  | nil => exact hs
  | cons id others ih =>
    have hasked : P (s.ask m.lockers id src).2.disk := hk id src s hs
    simp only [decideEach]
    rcases h : s.ask m.lockers id src with ⟨_ | _, asked⟩
    · rw [h] at hasked
      exact ih asked hasked
    · rw [h] at hasked
      simp only
      rcases h : m.rename asked src dst with ⟨_ | _, tried⟩
      · exact ih tried (rename_false h ▸ hasked)
      · exact hasked

theorem decision_begin {P : Disk → Prop} (hk : ∀ id p s, P s.disk → P (m.lockers id p s).2.disk)
    (hs : P s.disk) : P (m.decision s src dst).begin.disk := by
  unfold decision
  rcases h : m.rename s src dst with ⟨_ | _, tried⟩
  · exact decideEach_begin hk _ tried (rename_false h ▸ hs)
  · exact hs

theorem decision_begin_of_keepDisk (m : Mover) (s : Session) (src dst : Path)
    (hlockers : m.lockers.KeepDisk) : (m.decision s src dst).begin.disk = s.disk :=
  decision_begin (P := fun d => d = s.disk) (fun id p s' hs => (hlockers id p s').trans hs) rfl

-- ---------------------------------------------------------------------------
-- The copy
-- ---------------------------------------------------------------------------

theorem disk_removeSource (s : Session) (src : Path) :
    (removeSource s src).disk = Temp.discard s.disk src := by
  unfold removeSource Temp.discard
  split <;> simp_all

theorem copyThenRemove_commits (m : Mover) (src dst : Path) (hd : s.disk.WellFormed) :
    (m.copyThenRemove s src dst).1 = false ∧ s.disk.Same (m.copyThenRemove s src dst).2.disk ∨
    ∃ b size data committed, s.disk.entry? dst = some b ∧ s.disk.Yields dst ∧ s.disk.isFile src ∧
      s.disk.size src = .ok size ∧ s.disk.read src = .ok data ∧
      s.disk.Stored b (data.take size) committed.disk ∧
      m.copyThenRemove s src dst = (true, (removeSource committed src).log .info "moved by copy and delete"
        [Record.text "src" src, Record.text "dst" dst]) := by
  unfold copyThenRemove
  cases hsrc : s.disk.isFile src with
  | false => exact .inl ⟨rfl, .refl s.disk⟩
  | true =>
    simp only [Bool.not_true, Bool.false_eq_true, if_false]
    cases hreserve : Temp.reserve s.disk dst.folderPart (stem dst) with
    | error f => exact .inl ⟨rfl, .refl s.disk⟩
    | ok made =>
      obtain ⟨temp, reserved⟩ := made
      obtain ⟨-, place, hscratch⟩ := Temp.reserve_ok hreserve
      obtain ⟨size, data, copied, hsize, hread, hcopy, hscratch⟩ :=
        hscratch.copyFile_reported hsrc m.durability
      simp only [hcopy]
      rcases h : m.rename (s.withDisk copied) temp dst with ⟨_ | _, after⟩
      · refine .inl ⟨rfl, ?_⟩
        simp only [rename_false h, Session.disk_withDisk]
        exact hscratch.discard
      · obtain ⟨hyields, folder, n, hf, -, hstored⟩ := hscratch.rename hd (rename_true h)
        exact .inr ⟨folder ++ [n], size, data, after, Disk.entry?_of_folderOf hf, hyields, trivial,
          hsize, hread, hstored, rfl⟩

theorem copyThenRemove_ok (m : Mover) (src dst : Path) (hd : s.disk.WellFormed)
    (hlen : s.disk.ReportsLength src) :
    (m.copyThenRemove s src dst).1 = false ∧ s.disk.Same (m.copyThenRemove s src dst).2.disk ∨
    (m.copyThenRemove s src dst).1 = true ∧ ∃ b data committed,
      s.disk.entry? dst = some b ∧ s.disk.Yields dst ∧ s.disk.isFile src ∧
      s.disk.read src = .ok data ∧ s.disk.Stored b data committed ∧
      (m.copyThenRemove s src dst).2.disk = Temp.discard committed src := by
  refine (copyThenRemove_commits m src dst hd).imp id ?_
  rintro ⟨b, size, data, committed, hb, hyields, hsrc, hsize, hread, hstored, hdone⟩
  rw [Disk.size_of_reportsLength hlen hsrc hsize hread, List.take_length] at hstored
  refine ⟨by rw [hdone], b, data, committed.disk, hb, hyields, hsrc, hread, hstored, ?_⟩
  simp [hdone, disk_removeSource]

-- ---------------------------------------------------------------------------
-- Moves between different entries
-- ---------------------------------------------------------------------------

/-- The entry that `src` named stands under the name `dst`, with all that is below it; or both are names of
one node, and both stay. No other entry has changed. -/
def TookOver (src dst : Path) (d d' : Disk) : Prop :=
  ∃ a b, d.entry? src = some a ∧ d.entry? dst = some b ∧
    (Disk.Renamed a b d d' ∧ (∀ below, below ≠ [] → d.item? (b ++ below) = none) ∨
      d' = d ∧ ∃ id, d.item? a = some (.leaf id) ∧ d.item? b = some (.leaf id))

/-- A regular file with the bytes of `src` stands under the name `dst`. No other entry has changed, but
`src` may be gone. -/
def Copied (src dst : Path) (d d' : Disk) : Prop :=
  ∃ b mode data, d.entry? dst = some b ∧ d.read src = .ok data ∧
    d'.node? b = some (.file mode data) ∧
    ∀ q, q ≠ b → d.SameAt d' q ∨ d.entry? src = some q ∧ d'.item? q = none

theorem tookOver_of_rename {d d' : Disk} (hd : d.WellFormed)
    (hne : ∀ a, d.entry? src = some a → d.entry? dst ≠ some a) (h : d.rename src dst = .ok d') :
    TookOver src dst d d' := by
  obtain ⟨a, b, item, ha, hb, hi, hcase, -⟩ := Disk.rename_ok h
  refine ⟨a, b, ha, hb, ?_⟩
  rcases hcase with ⟨rfl, rfl | hnode⟩ | ⟨rfl, hab, hba, hvacant⟩
  · exact absurd hb (hne a ha)
  · exact .inr ⟨rfl, hnode⟩
  · exact .inl ⟨Disk.renamed_moveItems hab hba, fun below hbelow =>
      hvacant.elim (fun h => hd.item?_below h hbelow) (fun h => hd.item?_below_empty h hbelow)⟩

theorem copied_of_stored {d committed : Disk} {b : Place} {data : Bytes} (hb : d.entry? dst = some b)
    (hread : d.read src = .ok data) (h : d.Stored b data committed)
    (hne : ∀ a, d.entry? src = some a → d.entry? dst ≠ some a) :
    Copied src dst d (Temp.discard committed src) := by
  obtain ⟨mode, hnode⟩ := h.node?_place
  unfold Temp.discard
  split
  · rename_i after hunlink
    obtain ⟨a, hroot, ha, rfl⟩ := h.unlink hunlink
    have hab : a ≠ b := by rintro rfl; exact hne a ha hb
    refine ⟨b, mode, data, hb, hread, ?_, fun q hq => ?_⟩
    · rw [← hnode, Disk.node?, Disk.item?_eraseItem _ _ _ hroot, if_neg hab]
      rfl
    · by_cases haq : a = q
      · exact .inr ⟨haq ▸ ha, by rw [Disk.item?_eraseItem _ _ _ hroot, if_pos haq]⟩
      · refine .inl ((h.sameAt (Ne.symm hq)).trans (.of_item ?_ fun _ _ => rfl))
        rw [Disk.item?_eraseItem _ _ _ hroot, if_neg haq]
  · exact ⟨b, mode, data, hb, hread, hnode, fun q hq => .inl (h.sameAt (Ne.symm hq))⟩

/-- Between different entries a forced move does all that it says or nothing at all, whatever is refused
and whatever the lockers answer. -/
theorem move_atomic (m : Mover) (s : Session) (src dst : Path) (hd : s.disk.WellFormed)
    (hlen : s.disk.ReportsLength src) (hlockers : m.lockers.KeepDisk)
    (hne : ∀ a, s.disk.entry? src = some a → s.disk.entry? dst ≠ some a) :
    ((m.move s src dst).1 = false → s.disk.Same (m.move s src dst).2.disk) ∧
    ((m.move s src dst).1 = true →
      match m.decision s src dst with
      | .renames _ => TookOver src dst s.disk (m.move s src dst).2.disk
      | .copies _ => Copied src dst s.disk (m.move s src dst).2.disk) := by
  have hbegin := decision_begin_of_keepDisk m s src dst hlockers
  rcases move_decided m s src dst with ⟨start, hdec, hdone, hr⟩ | ⟨start, hdec, hdone, hdisk⟩
  · rw [hdec] at hbegin ⊢
    rw [show start.disk = s.disk from hbegin] at hr
    exact ⟨fun h => by simp [hdone] at h, fun _ => tookOver_of_rename hd hne hr⟩
  · rw [hdec] at hbegin ⊢
    have hstart : start.disk = s.disk := hbegin
    rw [hdone, hdisk, ← hstart]
    rcases copyThenRemove_ok m src dst (hstart ▸ hd) (hstart ▸ hlen) with
      ⟨hfalse, hsame⟩ | ⟨htrue, b, data, committed, hb, -, -, hread, hstored, hafter⟩
    · exact ⟨fun _ => hsame, fun h => by simp [hfalse] at h⟩
    · refine ⟨fun h => by simp [htrue] at h, fun _ => ?_⟩
      rw [hafter]
      exact copied_of_stored hb hread hstored (hstart ▸ hne)

def besideLink : Session where
  world := {
    disk := {
      items := [
        ([['d']], .folder newFolderMode),
        ([['d'], ['a']], .leaf 1),
        ([['l']], .leaf 2)]
      nodes := [(1, .file newFileMode [7]), (2, .link ['d'])]
      cwd := [] }
    registry := ⟨[['k']], by decide⟩ }

/-- Every rename of `l/a` is refused, though the lockers let go of everything. -/
def refusing : Mover where
  lockers := fun _ _ s => (true, s.world)
  refusal := fun _ src _ => if src = ['l', '/', 'a'] then some (.system .crossDevice) else none

theorem refusing_copies : besideLink.disk.WellFormed ∧
    besideLink.disk.ReportsLength ['l', '/', 'a'] ∧ refusing.lockers.KeepDisk ∧
    (∀ a, besideLink.disk.entry? ['l', '/', 'a'] = some a →
      besideLink.disk.entry? ['.', '/', 'b'] ≠ some a) ∧
    (refusing.move besideLink ['l', '/', 'a'] ['.', '/', 'b']).1 = true ∧
    Copied ['l', '/', 'a'] ['.', '/', 'b'] besideLink.disk
      (refusing.move besideLink ['l', '/', 'a'] ['.', '/', 'b']).2.disk := by
  have hs : besideLink.disk.Sound := .of_items (by decide) (by decide)
  have hk : refusing.lockers.KeepDisk := fun _ _ _ => rfl
  have hsrc : besideLink.disk.entry? ['l', '/', 'a'] = some [['d'], ['a']] := by decide +kernel
  have hdst : besideLink.disk.entry? ['.', '/', 'b'] = some [['b']] := by decide +kernel
  have hne : ∀ a, besideLink.disk.entry? ['l', '/', 'a'] = some a →
      besideLink.disk.entry? ['.', '/', 'b'] ≠ some a := by
    rw [hsrc, hdst]
    rintro _ ⟨⟩
    decide
  have hdone : (refusing.move besideLink ['l', '/', 'a'] ['.', '/', 'b']).1 = true := by decide +kernel
  exact ⟨hs.tree, hs.lengths _, hk, hne, hdone,
    (move_atomic refusing besideLink _ _ hs.tree (hs.lengths _) hk hne).2 hdone⟩

-- ---------------------------------------------------------------------------
-- What a move that succeeds delivers
-- ---------------------------------------------------------------------------

/-- What `src` held when the move was decided stands under the name that `dst` was then: its entry with all
that is below it if a rename decided, its bytes if it was copied. -/
def Delivered (m : Mover) (s : Session) (src dst : Path) : Prop :=
  match m.decision s src dst with
  | .renames start => ∃ a b, start.disk.entry? src = some a ∧ start.disk.entry? dst = some b ∧
      (start.disk.item? a).isSome ∧ ∀ below,
        (m.move s src dst).2.disk.item? (b ++ below) = start.disk.item? (a ++ below) ∧
        (m.move s src dst).2.disk.node? (b ++ below) = start.disk.node? (a ++ below)
  | .copies start => ∃ b mode data, start.disk.entry? dst = some b ∧ start.disk.read src = .ok data ∧
      (m.move s src dst).2.disk.node? b = some (.file mode data)

/-- A copy is begun only between different entries. -/
def CopiesApart (m : Mover) (s : Session) (src dst : Path) : Prop :=
  match m.decision s src dst with
  | .renames _ => True
  | .copies start => ∀ a, start.disk.entry? src = some a → start.disk.entry? dst ≠ some a

theorem delivers_of_rename {d d' : Disk} (hd : d.WellFormed) (h : d.rename src dst = .ok d') :
    ∃ a b, d.entry? src = some a ∧ d.entry? dst = some b ∧ (d.item? a).isSome ∧
      ∀ below, d'.item? (b ++ below) = d.item? (a ++ below) ∧
        d'.node? (b ++ below) = d.node? (a ++ below) := by
  obtain ⟨a, b, item, ha, hb, hi, hcase, -⟩ := Disk.rename_ok h
  refine ⟨a, b, ha, hb, by simp [hi], fun below => ?_⟩
  rcases hcase with ⟨hsame, rfl | ⟨id, hia, hib⟩⟩ | ⟨rfl, hab, hba, -⟩
  · rw [hsame]
    exact ⟨rfl, rfl⟩
  · have hitem : d.item? (b ++ below) = d.item? (a ++ below) := by
      by_cases hnil : below = []
      · simp [hnil, hia, hib]
      · rw [hd.item?_below (Disk.isFolderAt_of_leaf hib) hnil,
          hd.item?_below (Disk.isFolderAt_of_leaf hia) hnil]
    rw [hsame]
    exact ⟨hitem, by simp [Disk.node?, hitem]⟩
  · have hren := Disk.renamed_moveItems (d := d) hab hba
    exact ⟨hren.there below, hren.node?⟩

/-- A move that succeeds delivers what `src` held, unless it copied an entry onto itself: then the new file
is what the copy removes at last. Lockers may change the tree in any way before they answer. -/
theorem move_delivers_iff (m : Mover) (s : Session) (src dst : Path) (hs : s.disk.Sound)
    (hlockers : ∀ id p s, s.disk.Sound → (m.lockers id p s).2.disk.Sound)
    (hdone : (m.move s src dst).1 = true) : m.Delivered s src dst ↔ m.CopiesApart s src dst := by
  have hbegin : (m.decision s src dst).begin.disk.Sound :=
    decision_begin (P := Disk.Sound) (fun id p s' => hlockers id p s') hs
  unfold Delivered CopiesApart
  rcases move_decided m s src dst with ⟨start, hdec, -, hr⟩ | ⟨start, hdec, hcopy, hdisk⟩
  · rw [hdec] at hbegin ⊢
    exact iff_of_true (delivers_of_rename hbegin.tree hr) trivial
  · rw [hdec] at hbegin ⊢
    have hd : start.disk.WellFormed := hbegin.tree
    rw [hcopy] at hdone
    simp only [hdisk]
    rcases copyThenRemove_ok m src dst hd (hbegin.lengths src) with
      ⟨hfalse, -⟩ | ⟨-, b, data, committed, hb, -, hsrc, hread, hstored, hafter⟩
    · simp [hfalse] at hdone
    rw [hafter]
    constructor
    · rintro ⟨b', mode, data', hb', -, hnode⟩ a ha ha'
      obtain rfl : b = b' := by simpa [hb] using hb'
      obtain rfl : b = a := by simpa [hb] using ha'
      rw [Temp.discard, hstored.unlink_self hd ha hsrc] at hnode
      simp [Disk.node?, Disk.item?_eraseItem _ _ _ hstored.ne_root] at hnode
    · intro hne
      obtain ⟨b, mode, data, hb, hread, hnode, -⟩ := copied_of_stored hb hread hstored hne
      exact ⟨b, mode, data, hb, hread, hnode⟩

def oneLocker : Session where
  world := { disk := { items := [], nodes := [], cwd := [] }, registry := ⟨[['k']], by decide⟩ }

def oneFile : Disk where
  items := [([['a']], .leaf 1)]
  nodes := [(1, .file newFileMode [7])]
  cwd := []

def making : Mover where
  lockers := fun _ _ s => (true, { s.world with disk := oneFile })

theorem making_delivers : oneLocker.disk.Sound ∧
    (∀ id p s, s.disk.Sound → (making.lockers id p s).2.disk.Sound) ∧
    (making.move oneLocker ['a'] ['b']).1 = true ∧ making.Delivered oneLocker ['a'] ['b'] := by
  have hs : oneLocker.disk.Sound := .of_items (by decide) (by decide)
  have hmade : oneFile.Sound := .of_items (by decide) (by decide)
  have hk : ∀ id p s, s.disk.Sound → (making.lockers id p s).2.disk.Sound := fun _ _ _ _ => hmade
  have hdone : (making.move oneLocker ['a'] ['b']).1 = true := by decide +kernel
  exact ⟨hs, hk, hdone, (move_delivers_iff making oneLocker ['a'] ['b'] hs hk hdone).mpr trivial⟩

def keeping : Mover where
  lockers := .scripted [(['k'], ⟨[false], [[.file ['a'] [7]]]⟩)]

/-- A file that is copied onto itself is lost, and the move claims success. -/
theorem move_loses_copied_onto_itself : (keeping.move oneLocker ['a'] ['a']).1 = true ∧
    (keeping.move oneLocker ['a'] ['a']).2.disk.items = [] ∧
    ¬ keeping.Delivered oneLocker ['a'] ['a'] := by
  have hempty : (keeping.move oneLocker ['a'] ['a']).2.disk.items = [] := by decide +kernel
  refine ⟨by decide +kernel, hempty, ?_⟩
  rintro ⟨b, mode, data, -, -, hnode⟩
  cases b with
  | nil => cases hnode
  | cons n rest => simp [Disk.node?, Disk.item?, hempty, Table.get?] at hnode

end Mover

end SafeFiles
