import SafeFiles.Proofs.MoverLaws

/-!
# What a move leaves behind

A rename takes the entry along. A copy removes it at the end, when the new file
already stands: that works if the system lets go of the entry and its path does
not lead through the one that was replaced (`Stored.unlink_iff`). If it does not
work, the move has still succeeded, and its log says what is left.
-/

namespace SafeFiles

namespace Disk

variable {d d' : Disk} {src dst : Path} {a b : Place} {bytes : Bytes}

def OneNode (d : Disk) (a b : Place) : Prop :=
  ∃ id, d.item? a = some (.leaf id) ∧ d.item? b = some (.leaf id)

/-- The system does not keep the entry at `a`, and `src` leads to it without the one at `b`. -/
def LetsGo (d : Disk) (src : Path) (a b : Place) : Prop :=
  d.isFixedAt a = false ∧ Disk.entry? (d.eraseItem b) src = some a

theorem leaf_of_entry? (hd : d.WellFormed) (ha : d.entry? src = some a) (hsrc : d.isFile src) :
    ∃ folder n id, d.folderOf src = .ok (folder, .name n false) ∧ a = folder ++ [n] ∧
      d.item? a = some (.leaf id) := by
  obtain ⟨folder, n, slash, hf, rfl⟩ := entry?_eq_some.mp ha
  obtain ⟨source, node, hstat, hnode, -⟩ := leaf_of_isFile hsrc
  have hleaf := isFolderAt_of_node? hnode
  obtain ⟨rfl, -⟩ := route_of_stat_leaf hd hf hstat hleaf
  obtain ⟨id, hi, -⟩ := route_without_entry hd hf hstat hleaf
  exact ⟨folder, n, id, hf, rfl, hi⟩

/-- When a new file has replaced the entry at `b`, the path of a file elsewhere still removes its entry exactly
if that lets go. -/
theorem Stored.unlink_iff (h : d.Stored b bytes d') (hd : d.WellFormed) (ha : d.entry? src = some a)
    (hab : a ≠ b) (hsrc : d.isFile src) : d'.unlink src = .ok (d'.eraseItem a) ↔ d.LetsGo src a b := by
  obtain ⟨folder, n, id, hf, rfl, hi⟩ := leaf_of_entry? hd ha hsrc
  have hsame := h.sameAt (Ne.symm hab)
  have hi' : d'.item? (folder ++ [n]) = some (.leaf id) := hsame.1.trans hi
  have hfixed : d.isFixedAt (folder ++ [n]) = (d'.node id).isFixed := by
    rw [isFixedAt, ← hsame.2, node?_of_leaf hi', Option.any_some]
  rw [LetsGo, hfixed]
  constructor
  · intro hunlink
    obtain ⟨folder', n', id', hf', -, hitem, hkept, -⟩ := unlink_ok.mp hunlink
    obtain ⟨rfl, rfl⟩ : folder = folder' ∧ n = n' := by simpa [hf] using h.folderOf hf'
    obtain rfl : id = id' := by simpa [hi'] using hitem
    exact ⟨hkept, entry?_of_folderOf (h.folderOf_erase hf')⟩
  · rintro ⟨hkept, hentry⟩
    obtain ⟨folder', n', slash, hf', -⟩ := entry?_eq_some.mp hentry
    have hafter := h.within_of_erase.folderOf h.cwd hf'
    have hbefore := h.folderOf hafter
    rw [hf] at hbefore
    cases hbefore
    exact unlink_ok.mpr ⟨folder, n, id, hafter, (hd.names hi n (by simp)).2, hi', hkept, rfl⟩

theorem Stored.unlink_eq (h : d.Stored b bytes d') (ha : d.entry? src = some a) {after : Disk}
    (hunlink : d'.unlink src = .ok after) : after = d'.eraseItem a := by
  obtain ⟨q, -, hq, rfl⟩ := h.unlink hunlink
  obtain rfl : a = q := by simpa [ha] using hq
  rfl

theorem item?_of_rename (ha : d.entry? src = some a) (hb : d.entry? dst = some b) (hab : a ≠ b)
    (hnodes : ¬ d.OneNode a b) (h : d.rename src dst = .ok d') : d'.item? a = none := by
  obtain ⟨a', b', item, ha', hb', -, hcase, -⟩ := rename_ok h
  obtain rfl : a = a' := by simpa [ha] using ha'
  obtain rfl : b = b' := by simpa [hb] using hb'
  rcases hcase with ⟨-, hsame | hnode⟩ | ⟨rfl, hapart, hapart', -⟩
  · exact absurd hsame hab
  · exact absurd hnode hnodes
  · simpa using (renamed_moveItems (d := d) hapart hapart').gone []

end Disk

namespace Mover

variable {m : Mover} {s start : Session} {src dst : Path} {a b : Place}

/-- The log ends with the record of a copy whose source could not be removed. -/
def WarnsOfSource (s : Session) (src dst : Path) : Prop :=
  ∃ earlier f, s.records = earlier ++ [
    ⟨.warn, "copied to destination but could not remove source",
      [Record.text "src" src, Record.text "error" (Fault.text f).toList]⟩,
    ⟨.info, "moved by copy and delete", [Record.text "src" src, Record.text "dst" dst]⟩]

/-- A copy that is committed removes its source if that lets go. Otherwise the source stays, and is warned of. -/
theorem copyThenRemove_vacates (m : Mover) (hd : s.disk.WellFormed) (ha : s.disk.entry? src = some a)
    (hb : s.disk.entry? dst = some b) (hab : a ≠ b) (hdone : (m.copyThenRemove s src dst).1 = true) :
    (s.disk.LetsGo src a b → (m.copyThenRemove s src dst).2.disk.item? a = none) ∧
    (¬ s.disk.LetsGo src a b → s.disk.SameAt (m.copyThenRemove s src dst).2.disk a ∧
      WarnsOfSource (m.copyThenRemove s src dst).2 src dst) := by
  rcases copyThenRemove_commits m src dst hd with
    ⟨hfalse, -⟩ | ⟨b', size, data, committed, hb', -, hsrc, -, -, hstored, hends⟩
  · simp [hfalse] at hdone
  obtain rfl : b = b' := by simpa [hb] using hb'
  have hunlink := hstored.unlink_iff hd ha hab hsrc
  have hroot : a ≠ [] := by
    obtain ⟨folder, n, slash, -, rfl⟩ := Disk.entry?_eq_some.mp ha
    simp
  rw [hends]
  cases hremove : committed.disk.unlink src with
  | ok after =>
    obtain rfl := hstored.unlink_eq ha hremove
    refine ⟨fun _ => ?_, fun hkept => absurd (hunlink.mp hremove) hkept⟩
    simp [removeSource, hremove, Disk.item?_eraseItem _ _ _ hroot]
  | error f =>
    refine ⟨fun hgoes => by simp [hunlink.mpr hgoes] at hremove, fun _ => ⟨?_, committed.records, f, ?_⟩⟩
    · simpa [removeSource, hremove] using hstored.sameAt (Ne.symm hab)
    · simp [removeSource, hremove, Session.records, Session.log, Session.note]

theorem move_of_copies (hdec : m.decision s src dst = .copies start) (hdone : (m.move s src dst).1 = true) :
    m.move s src dst = m.copyThenRemove start src dst := by
  unfold decision at hdec
  unfold move at hdone ⊢
  rcases h : m.rename s src dst with ⟨_ | _, tried⟩
  · rw [h] at hdec hdone
    simp only at hdec hdone ⊢
    rcases askEach_decided m src dst tried.world.registry.ids tried with ⟨start', hd, -⟩ | ⟨start', hd, hasked⟩
    · rw [hd] at hdec
      cases hdec
    · rw [hd] at hdec
      cases hdec
      rw [hasked] at hdone ⊢
      simp only at hdone ⊢
      rcases hcopy : m.copyThenRemove start src dst with ⟨_ | _, after⟩
      · simp [hcopy] at hdone
      · rfl
  · rw [h] at hdec
    cases hdec

/-- A move that succeeds leaves nothing under the name of its source. Only a copy may have to leave the entry
there, if that does not let go: then it is as it was, and the log says so. -/
theorem move_vacates (m : Mover) (s : Session) (src dst : Path) (hd : s.disk.WellFormed)
    (hlockers : m.lockers.KeepDisk) (ha : s.disk.entry? src = some a) (hb : s.disk.entry? dst = some b)
    (hab : a ≠ b) (hdone : (m.move s src dst).1 = true) :
    match m.decision s src dst with
    | .renames _ => ¬ s.disk.OneNode a b → (m.move s src dst).2.disk.item? a = none
    | .copies _ =>
      (s.disk.LetsGo src a b → (m.move s src dst).2.disk.item? a = none) ∧
      (¬ s.disk.LetsGo src a b → s.disk.SameAt (m.move s src dst).2.disk a ∧
        WarnsOfSource (m.move s src dst).2 src dst) := by
  have hbegin := decision_begin_of_keepDisk m s src dst hlockers
  rcases move_decided m s src dst with ⟨start, hdec, -, hr⟩ | ⟨start, hdec, -, -⟩
  · rw [hdec] at hbegin ⊢
    rw [show start.disk = s.disk from hbegin] at hr
    exact fun hnodes => Disk.item?_of_rename ha hb hab hnodes hr
  · have hcopied := move_of_copies hdec hdone
    rw [hdec] at hbegin ⊢
    rw [hcopied] at hdone ⊢
    rw [← show start.disk = s.disk from hbegin] at hd ha hb ⊢
    exact copyThenRemove_vacates m hd ha hb hab hdone

theorem refusing_vacates : besideLink.disk.WellFormed ∧ refusing.lockers.KeepDisk ∧
    besideLink.disk.entry? ['l', '/', 'a'] = some [['d'], ['a']] ∧
    besideLink.disk.entry? ['.', '/', 'b'] = some [['b']] ∧
    (refusing.move besideLink ['l', '/', 'a'] ['.', '/', 'b']).1 = true ∧
    besideLink.disk.LetsGo ['l', '/', 'a'] [['d'], ['a']] [['b']] ∧
    (refusing.move besideLink ['l', '/', 'a'] ['.', '/', 'b']).2.disk.item? [['d'], ['a']] = none := by
  have hd : besideLink.disk.WellFormed := .of_items (by decide)
  have hk : refusing.lockers.KeepDisk := fun _ _ _ => rfl
  have hsrc : besideLink.disk.entry? ['l', '/', 'a'] = some [['d'], ['a']] := by decide +kernel
  have hdst : besideLink.disk.entry? ['.', '/', 'b'] = some [['b']] := by decide +kernel
  have hdone : (refusing.move besideLink ['l', '/', 'a'] ['.', '/', 'b']).1 = true := by decide +kernel
  have hgoes : besideLink.disk.LetsGo ['l', '/', 'a'] [['d'], ['a']] [['b']] :=
    ⟨by decide +kernel, by decide +kernel⟩
  have hcase : (besideLink.disk.LetsGo ['l', '/', 'a'] [['d'], ['a']] [['b']] → _) ∧ _ :=
    move_vacates refusing besideLink _ _ hd hk hsrc hdst (by decide) hdone
  exact ⟨hd, hk, hsrc, hdst, hdone, hgoes, hcase.1 hgoes⟩

def oneRecord : Session where
  world := {
    disk := {
      items := [([['p']], .leaf 1)]
      nodes := [(1, .kernel newFileMode [7])]
      cwd := [] } }

/-- The system does not let a kernel record go: a copy of it succeeds, and it stays. So does a file whose path ran
through the link that its copy replaced. -/
theorem move_leaves_source :
    (oneRecord.disk.WellFormed ∧ Lockers.idle.KeepDisk ∧
      oneRecord.disk.entry? ['p'] = some [['p']] ∧ oneRecord.disk.entry? ['b'] = some [['b']] ∧
      (Mover.move { lockers := .idle } oneRecord ['p'] ['b']).1 = true ∧
      (Mover.move { lockers := .idle } oneRecord ['p'] ['b']).2.disk.item? [['p']] = some (.leaf 1)) ∧
    (besideLink.disk.WellFormed ∧ refusing.lockers.KeepDisk ∧
      besideLink.disk.entry? ['l', '/', 'a'] = some [['d'], ['a']] ∧ besideLink.disk.entry? ['l'] = some [['l']] ∧
      (refusing.move besideLink ['l', '/', 'a'] ['l']).1 = true ∧
      (refusing.move besideLink ['l', '/', 'a'] ['l']).2.disk.item? [['d'], ['a']] = some (.leaf 1)) :=
  ⟨⟨.of_items (by decide), Lockers.keepDisk_idle, by decide +kernel, by decide +kernel, by decide +kernel,
      by decide +kernel⟩,
    .of_items (by decide), fun _ _ _ => rfl, by decide +kernel, by decide +kernel, by decide +kernel,
    by decide +kernel⟩

end Mover

end SafeFiles
