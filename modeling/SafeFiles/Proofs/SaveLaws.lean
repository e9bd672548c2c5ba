import SafeFiles.Proofs.LandingLaws
import SafeFiles.Save

/-!
# A verified save is all or nothing

A save that fails has changed nothing, and one that succeeds has put the bytes that it
read back at the place that its target named. The target is that file, with all else as
it was, exactly if it names its entry plainly: a path through the very link that the file
has replaced leads nowhere from then on, and a copy made on the way may stay behind
(`Save.save_all_or_nothing`, `Save.save_cuts_its_way`).
-/

namespace SafeFiles

namespace Disk

variable {d d' : Disk} {temp : Path} {place : Place} {bytes : Bytes}

theorem Scratch.size (h : Scratch d temp place bytes d') : d'.size temp = .ok bytes.length := by
  obtain ⟨mode, hnode⟩ := h.node?_place
  have hstat : d'.stat temp = .ok place := h.seek
  simp [Disk.size, hstat, Except.map, sizeAt, hnode, Node.size]

theorem Scratch.readFully (h : Scratch d temp place bytes d') :
    d'.readFully temp = if bytes = [] then none else some bytes := by
  rw [Disk.readFully, h.size, h.read]
  simp

end Disk

namespace Save

variable {save : Save} {m : Mover} {s : Session} {d d' : Disk} {temp : Path} {place folder : Place} {n : Name}
  {bytes : Bytes}

-- ---------------------------------------------------------------------------
-- The parts of a save
-- ---------------------------------------------------------------------------

theorem verify_iff (h : d.Scratch temp place bytes d') :
    (save.verify d' temp).complaint? = none ↔ bytes = save.data := by
  unfold verify
  rw [h.readFully, h.size]
  by_cases hbytes : bytes = []
  · by_cases hdata : save.data = []
    · simp [hbytes, hdata, Verdict.complaint?]
    · simp [hbytes, hdata, Verdict.complaint?, Ne.symm hdata]
  · by_cases hsame : bytes = save.data
    · simp [hsame, hsame ▸ hbytes, Verdict.complaint?]
    · simp [hbytes, hsame, Verdict.complaint?]

/-- A step between the write and the read-back: it overwrites the temporary file, or does nothing. -/
def tampering : Option Bytes → Path → Disk → Disk
  | none, _, d => d
  | some bytes, temp, d => d.attempt (d.write temp bytes)

theorem scratch_tampering (h : d.Scratch temp place bytes d') (tamper : Option Bytes) :
    d.Scratch temp place (tamper.getD bytes) (tampering tamper temp d') := by
  cases tamper with
  | none => exact h
  | some found =>
    obtain ⟨written, hw, h⟩ := h.write found
    rw [tampering, hw]
    exact h

/-- The target is a file with the bytes, under the entry that it named before, and no other entry has changed. -/
def Saved (save : Save) (d d' : Disk) : Prop :=
  ∃ place mode, d.entry? save.target = some place ∧ d'.stat save.target = .ok place ∧
    d'.node? place = some (.file mode save.data) ∧ ∀ q, q ≠ place → d.SameAt d' q

/-- The bytes stand where the target named an entry. They stand there alone if the target names the entry plainly,
unless a copy was made in another folder. -/
structure Stands (save : Save) (m : Mover) (folder : Place) (n : Name) (d d' : Disk) : Prop where
  target : d.folderOf save.target = .ok (folder, .name n false)
  short : Text.utf8Size n ≤ nameLimit
  landed : d.Landed (folder ++ [n]) save.data d'
  alone : '/' ∉ save.name ∨ m.RefusesNothing → d.NamesPlainly save.target →
    ∀ q, q ≠ folder ++ [n] → d.SameAt d' q

theorem Stands.plainly (h : save.Stands m folder n d d') (hsaved : save.Saved d d') : d.NamesPlainly save.target := by
  obtain ⟨place, mode, hplace, hstat, -, -⟩ := hsaved
  obtain rfl : folder ++ [n] = place := by simpa [Disk.entry?_of_folderOf h.target] using hplace
  exact (h.landed.stat_iff h.short h.target).mp hstat

theorem Stands.saved (h : save.Stands m folder n d d') (hcopy : '/' ∉ save.name ∨ m.RefusesNothing)
    (hplainly : d.NamesPlainly save.target) : save.Saved d d' := by
  obtain ⟨id, mode, hi, hnode⟩ := h.landed.content
  exact ⟨folder ++ [n], mode, Disk.entry?_of_folderOf h.target, (h.landed.stat_iff h.short h.target).mpr hplainly,
    by rw [Disk.node?_of_leaf hi, hnode], h.alone hcopy hplainly⟩

/-- The way to a temporary file beside the target does without the target's entry, if the way to the target does. -/
theorem folderOf_temp (hd : d.WellFormed) (hcwd : save.folder.isAbsolute ∨ d.isFolderAt d.cwd)
    (hslash : '/' ∉ save.name) (hplainly : d.NamesPlainly save.target)
    (htarget : d.folderOf save.target = .ok (folder, .name n false)) (hleaf : d.isFolderAt (folder ++ [n]) = false)
    {k : Nat} (hc : Disk.checkPath ((Temp.base d save.folder).join (Temp.name save.name (Temp.tag k))) = .ok ()) :
    (d.eraseItem (folder ++ [n])).folderOf ((Temp.base d save.folder).join (Temp.name save.name (Temp.tag k))) =
      d.folderOf ((Temp.base d save.folder).join (Temp.name save.name (Temp.tag k))) := by
  have hroot : folder ++ [n] ≠ [] := by simp
  obtain ⟨folder', n', hf, hkept⟩ := hplainly
  obtain ⟨rfl, rfl⟩ : folder = folder' ∧ n = n' := by simpa [htarget] using hf
  have herased := hd.eraseItem hroot fun below hne => hd.item?_below hleaf hne
  have hcwd' : save.folder.isAbsolute ∨ (d.eraseItem (folder ++ [n])).isFolderAt d.cwd := by
    refine hcwd.imp id fun hworking => ?_
    rwa [Disk.isFolderAt_eraseItem hroot]
    rintro hsame
    simp [hsame, hworking] at hleaf
  rw [Temp.folderOf_beside hd hcwd hslash htarget hc]
  exact Temp.folderOf_beside (d := d.eraseItem (folder ++ [n])) herased hcwd' hslash hkept hc

theorem commit_eq (save : Save) (m : Mover) (s : Session) (temp : Path) :
    (save.commit m s temp).1 = (m.move s temp save.target).1 ∧
      (save.commit m s temp).2.disk = (m.move s temp save.target).2.disk := by
  unfold commit
  rcases m.move s temp save.target with ⟨_ | _, moved⟩
  · exact ⟨rfl, rfl⟩
  · exact ⟨rfl, rfl⟩

theorem commit_cases {reserved : Disk} (h : d.Scratch temp place save.data s.disk) (hd : d.WellFormed)
    (hreserve : Temp.reserve d save.folder save.name = .ok (temp, reserved)) (hlockers : m.lockers.KeepDisk) :
    (save.commit m s temp).1 = true ∧
      (∃ folder n, save.Stands m folder n d (Temp.discard (save.commit m s temp).2.disk temp)) ∨
    (save.commit m s temp).1 = false ∧ d.Same (Temp.discard (save.commit m s temp).2.disk temp) ∧
      (m.RefusesNothing → ¬ d.Yields save.target) := by
  obtain ⟨⟨k, hname⟩, -⟩ := Temp.reserve_ok hreserve
  have hapart {folder n} (htarget : d.folderOf save.target = .ok (folder, .name n false)) : place ≠ folder ++ [n] := by
    obtain ⟨home, m', htemp, -, rfl⟩ := h.named
    exact Temp.name_ne (hname ▸ htemp) htarget
  obtain ⟨hanswer, hdisk⟩ := commit_eq save m s temp
  rw [hanswer, hdisk]
  rcases m.move_scratch s save.target h hd hlockers with ⟨folder, n, hdone, htarget, hn, hstored⟩ |
    ⟨folder, n, committed, hdone, htarget, hn, hstored, hafter, hrefused⟩ | ⟨hfails, hsame, hrefused⟩
  · refine .inl ⟨hdone, folder, n, ?_⟩
    rw [h.discard_stored hstored (hapart htarget)]
    exact ⟨htarget, hn, hstored.landed, fun _ _ q hq => hstored.sameAt (Ne.symm hq)⟩
  · refine .inl ⟨hdone, folder, n, ?_⟩
    have hlanded := h.landed hstored.landed
    rw [hafter, Temp.discard_discard]
    refine ⟨htarget, hn, hlanded.discard h (hapart htarget), fun hcopy hplainly q hq => ?_⟩
    obtain ⟨hrooted, -⟩ := Temp.reserve_eq_ok.mp hreserve
    refine h.sameAt_discard hstored (hapart htarget) ?_ hq
    subst hname
    exact folderOf_temp hd hrooted (hcopy.resolve_right hrefused) hplainly htarget hlanded.leaf h.checkPath_self
  · exact .inr ⟨hfails, (h.of_same hsame).discard, hrefused⟩

-- ---------------------------------------------------------------------------
-- The whole save
-- ---------------------------------------------------------------------------

/-- A save, with a hook that may overwrite the temporary file before it is read back. -/
def runTampered (save : Save) (m : Mover) (s : Session) : Option Bytes → Bool × Session
  | none => save.run m s
  | some bytes => save.runWith m (fun temp d => d.attempt (d.write temp bytes)) s

theorem runTampered_eq (save : Save) (m : Mover) (s : Session) (tamper : Option Bytes) :
    save.runTampered m s tamper = save.runWith m (tampering tamper) s := by
  cases tamper <;> rfl

/-- What a save needs in order to succeed: a folder, a plain name that is short enough and that a file
can have there, a working folder if the path is relative, a tag that is free, and paths that are not
too long. -/
structure Fits (save : Save) (d : Disk) : Prop where
  plain : Name.IsPlain save.name
  short : Text.utf8Size save.name ≤ 234
  folder : ∃ home, d.stat save.folder = .ok home ∧ d.isFolderAt home ∧
    d.isFolderAt (home ++ [save.name]) = false ∧ d.isFixedAt (home ++ [save.name]) = false ∧
    ∃ k, k < Temp.tagLimit ∧ d.item? (home ++ [Temp.name save.name (Temp.tag k)]) = none
  working : save.folder.isAbsolute ∨ d.isFolderAt d.cwd
  target : Text.utf8Size save.target < pathLimit
  temps : ∀ k, k < Temp.tagLimit →
    Text.utf8Size ((Temp.base d save.folder).join (Temp.name save.name (Temp.tag k))) < pathLimit

theorem Fits.reserve (h : save.Fits d) (hd : d.WellFormed) :
    ∃ temp reserved, Temp.reserve d save.folder save.name = .ok (temp, reserved) := by
  obtain ⟨home, hl, hf, -, -, hfree⟩ := h.folder
  have hshort : Text.utf8Size save.name + 21 ≤ nameLimit := by
    have := h.short
    unfold nameLimit
    omega
  exact Temp.reserve_of_free hd hl hf h.working h.plain hshort h.temps hfree

theorem Fits.yields (h : save.Fits d) : d.Yields save.target := by
  obtain ⟨home, hl, hf, hleaf, hfixed, -⟩ := h.folder
  obtain ⟨hc, hr, -⟩ := Disk.seek_ok.mp hl
  have hnul : save.target.hasNul = false :=
    Path.hasNul_join (Disk.checkPath_ok hc).1 (by simpa [Path.hasNul] using h.plain.2.2.2.2)
  have hcheck : Disk.checkPath save.target = .ok () :=
    Disk.checkPath_of hnul (Path.join_ne_nil h.plain.1) h.target
  have hshort : Text.utf8Size save.name ≤ nameLimit := by
    have := h.short
    unfold nameLimit
    omega
  exact ⟨home, save.name, Disk.folderOf_join hr.bare hf h.plain hcheck, hshort, hleaf, hfixed⟩

theorem runTampered_cases (save : Save) (m : Mover) (s : Session) (tamper : Option Bytes) (hd : s.disk.WellFormed)
    (hlockers : m.lockers.KeepDisk) :
    (save.runTampered m s tamper).1 = true ∧ tamper.getD save.data = save.data ∧
      (∃ folder n, save.Stands m folder n s.disk (save.runTampered m s tamper).2.disk) ∨
    (save.runTampered m s tamper).1 = false ∧ s.disk.Same (save.runTampered m s tamper).2.disk ∧
      (m.RefusesNothing → save.Fits s.disk → tamper.getD save.data ≠ save.data) := by
  rw [runTampered_eq, runWith]
  cases hreserve : Temp.reserve s.disk save.folder save.name with
  | error f =>
    refine .inr ⟨rfl, .refl s.disk, fun _ hfits => ?_⟩
    obtain ⟨temp, reserved, hok⟩ := hfits.reserve hd
    rw [hreserve] at hok
    cases hok
  | ok made =>
    obtain ⟨temp, reserved⟩ := made
    obtain ⟨-, place, hscratch⟩ := Temp.reserve_ok hreserve
    obtain ⟨written, hwrite, hscratch⟩ := hscratch.write save.data
    have hread := scratch_tampering hscratch tamper
    simp only [hwrite, Disk.flush_eq, Session.disk_withDisk]
    cases hverdict : (save.verify (tampering tamper temp written) temp).complaint? with
    | some complaint =>
      refine .inr ⟨rfl, hread.discard, fun _ _ hsame => ?_⟩
      rw [(verify_iff hread).mpr hsame] at hverdict
      cases hverdict
    | none =>
      have hsame := (verify_iff hread).mp hverdict
      rw [hsame] at hread
      rcases commit_cases (s := s.withDisk (tampering tamper temp written)) hread hd hreserve hlockers with
        ⟨hdone, hstands⟩ | ⟨hfails, hkept, hrefused⟩
      · exact .inl ⟨hdone, hsame, hstands⟩
      · exact .inr ⟨hfails, hkept, fun hnone hfits => absurd hfits.yields (hrefused hnone)⟩

/-- A save that succeeds has put the bytes that were read back at the place that its target named, and lost no other
entry. Its target is the file then, with all else as it was, exactly if it named its entry plainly; only a name with
a slash in it may leave a copy behind. A save that fails has changed nothing, and a save that fits succeeds unless
it was tampered with. -/
theorem save_all_or_nothing (save : Save) (m : Mover) (s : Session) (tamper : Option Bytes)
    (hd : s.disk.WellFormed) (hlockers : m.lockers.KeepDisk) :
    ((save.runTampered m s tamper).1 = true → tamper.getD save.data = save.data ∧
      (∃ place, s.disk.entry? save.target = some place ∧
        s.disk.Landed place save.data (save.runTampered m s tamper).2.disk) ∧
      (save.Saved s.disk (save.runTampered m s tamper).2.disk → s.disk.NamesPlainly save.target) ∧
      ('/' ∉ save.name ∨ m.RefusesNothing → s.disk.NamesPlainly save.target →
        save.Saved s.disk (save.runTampered m s tamper).2.disk)) ∧
    ((save.runTampered m s tamper).1 = false → s.disk.Same (save.runTampered m s tamper).2.disk) ∧
    (m.RefusesNothing → save.Fits s.disk → tamper.getD save.data = save.data →
      (save.runTampered m s tamper).1 = true) := by
  rcases runTampered_cases save m s tamper hd hlockers with
    ⟨hdone, hsame, folder, n, hstands⟩ | ⟨hfails, hkept, hunfit⟩
  · exact ⟨fun _ => ⟨hsame, ⟨_, Disk.entry?_of_folderOf hstands.target, hstands.landed⟩, hstands.plainly,
      hstands.saved⟩, fun h => by simp [hdone] at h, fun _ _ _ => hdone⟩
  · exact ⟨fun h => by simp [hfails] at h, fun _ => hkept, fun hnone hfits hsame => absurd hsame (hunfit hnone hfits)⟩

theorem run_stands (hd : s.disk.WellFormed) (hlockers : m.lockers.KeepDisk) (hdone : (save.run m s).1 = true) :
    ∃ folder n, save.Stands m folder n s.disk (save.run m s).2.disk := by
  rcases runTampered_cases save m s none hd hlockers with ⟨-, -, hstands⟩ | ⟨hfails, -⟩
  · exact hstands
  · exact absurd hdone (by rw [← runTampered, hfails]; simp)

def linkInTheWay : Session where
  world.disk := {
    items := [
      ([['d']], .folder newFolderMode),
      ([['d'], ['n']], .leaf 1),
      ([['d'], ['t']], .leaf 2)]
    nodes := [(1, .link ['t']), (2, .file newFileMode [7])]
    cwd := [] }

def twoBytes : Save := ⟨['d'], ['n'], [1, 2]⟩

theorem twoBytes_replaces_link : linkInTheWay.disk.WellFormed ∧ Lockers.idle.KeepDisk ∧
    Mover.RefusesNothing { lockers := .idle } ∧ twoBytes.Fits linkInTheWay.disk ∧
    (twoBytes.runTampered { lockers := .idle } linkInTheWay none).1 = true ∧
    Mover.copying.lockers.KeepDisk ∧ '/' ∉ twoBytes.name ∧
    (twoBytes.runTampered Mover.copying linkInTheWay none).1 = true ∧
    linkInTheWay.disk.NamesPlainly twoBytes.target ∧
    twoBytes.Saved linkInTheWay.disk (twoBytes.runTampered Mover.copying linkInTheWay none).2.disk := by
  have hd : linkInTheWay.disk.WellFormed := .of_items (by decide)
  have hfits : twoBytes.Fits linkInTheWay.disk := by
    refine ⟨by decide, by decide, ⟨[['d']], by rfl, by rfl, by rfl, by rfl, 0, by decide, by rfl⟩,
      .inr rfl, by decide, fun k hk => ?_⟩
    have hname := Temp.utf8Size_name twoBytes.name hk
    have hjoin := Path.utf8Size_join_le (Temp.base linkInTheWay.disk twoBytes.folder)
      (Temp.name twoBytes.name (Temp.tag k))
    have hbase : Text.utf8Size (Temp.base linkInTheWay.disk twoBytes.folder) = 2 := by decide
    have hshort : Text.utf8Size twoBytes.name = 1 := by decide
    unfold pathLimit
    omega
  have hnone : Mover.RefusesNothing { lockers := .idle } := fun _ _ _ => rfl
  obtain ⟨-, -, hdone⟩ := save_all_or_nothing twoBytes { lockers := .idle } linkInTheWay none hd Lockers.keepDisk_idle
  have hcopying : Mover.copying.lockers.KeepDisk := fun _ _ _ => rfl
  have hcopied : (twoBytes.runTampered Mover.copying linkInTheWay none).1 = true := by decide +kernel
  have hslash : '/' ∉ twoBytes.name := by decide
  have hplainly : linkInTheWay.disk.NamesPlainly twoBytes.target :=
    ⟨[['d']], ['n'], by decide +kernel, by decide +kernel⟩
  obtain ⟨hsaved, -, -⟩ := save_all_or_nothing twoBytes Mover.copying linkInTheWay none hd hcopying
  exact ⟨hd, Lockers.keepDisk_idle, hnone, hfits, hdone hnone hfits rfl, hcopying, hslash, hcopied, hplainly,
    (hsaved hcopied).2.2.2 (.inl hslash) hplainly⟩

def besideFolder : Session where
  world.disk := {
    items := [([['r']], .folder newFolderMode), ([['l']], .leaf 1)]
    nodes := [(1, .link ['r'])]
    cwd := [] }

def throughItself : Save := ⟨"l/..".toList, ['l'], [1, 2]⟩

/-- A link in the folder `a`, and one beside it that leads through the first. -/
def behindLink : Session where
  world.disk := {
    items := [
      ([['a']], .folder newFolderMode),
      ([['a'], ['b']], .leaf 1),
      ([".fs_guard.a".toList], .leaf 2),
      ([['x']], .folder newFolderMode)]
    nodes := [(1, .link "/x".toList), (2, .link "a/b".toList)]
    cwd := [] }

/-- The temporary file of this save is made in the folder `x`. -/
def slashed : Save := ⟨['/'], "a/b".toList, [1, 2]⟩

/-- A save that replaces the link on its own way succeeds, and its target leads nowhere. If the first rename is
refused, the temporary file stays as well; where the name holds a slash, it may do so although the target names its
entry plainly. -/
theorem save_cuts_its_way :
    (besideFolder.disk.WellFormed ∧ Lockers.idle.KeepDisk ∧
      (throughItself.runTampered { lockers := .idle } besideFolder none).1 = true ∧
      ((throughItself.runTampered { lockers := .idle } besideFolder none).2.disk.stat
        throughItself.target).isOk = false) ∧
    (Mover.copying.lockers.KeepDisk ∧ (throughItself.runTampered Mover.copying besideFolder none).1 = true ∧
      ((throughItself.runTampered Mover.copying besideFolder none).2.disk.item?
        [Temp.name ['l'] (Temp.tag 0)]).isSome) ∧
    (behindLink.disk.WellFormed ∧ behindLink.disk.NamesPlainly slashed.target ∧
      (slashed.runTampered Mover.copying behindLink none).1 = true ∧
      ((slashed.runTampered Mover.copying behindLink none).2.disk.item?
        [['x'], "b.000000.tmp".toList]).isSome) := by
  refine ⟨⟨.of_items (by decide), Lockers.keepDisk_idle, by decide +kernel, by decide +kernel⟩,
    ⟨fun _ _ _ => rfl, by decide +kernel, by decide +kernel⟩, .of_items (by decide), ?_, by decide +kernel,
    by decide +kernel⟩
  exact ⟨[['a']], ['b'], by decide +kernel, by decide +kernel⟩

end Save

end SafeFiles
