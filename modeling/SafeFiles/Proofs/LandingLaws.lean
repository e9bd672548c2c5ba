import SafeFiles.Proofs.MoverLaws
import SafeFiles.Proofs.TempNameLaws

/-!
# Where a file lands

However a temporary file is moved, with the first rename, with one that a locker made
possible or as a copy, its bytes land at the place that the destination named
(`Mover.move_scratch`). The path of the destination leads to them if it names its entry
plainly (`Disk.NamesPlainly`): nothing stands behind the name, and the way to it does
without the entry that has been replaced. Any other path is stopped by the new file
(`Landed.stat_cases`).
-/

namespace SafeFiles

namespace Disk

variable {d d' mid' after : Disk} {p temp : Path} {place here folder mid b q : Place} {n : Name} {bytes data : Bytes}
  {links : Nat} {before behind : List Step}

-- ---------------------------------------------------------------------------
-- A file that has landed
-- ---------------------------------------------------------------------------

/-- The bytes stand at the place, where there was no folder. The other entries are there, and folders are
found where they were found before or not at all. -/
structure Landed (d : Disk) (place : Place) (bytes : Bytes) (d' : Disk) : Prop where
  leaf : d.isFolderAt place = false
  content : ∃ id mode, d'.item? place = some (.leaf id) ∧ d'.node id = .file mode bytes
  others : (d.eraseItem place).Within d'
  back : ∀ {p folder last}, d'.folderOf p = .ok (folder, last) → d.folderOf p = .ok (folder, last)
  cwd : d'.cwd = d.cwd

theorem Stored.landed (h : Stored d place bytes d') : Landed d place bytes d' where
  leaf := h.leaf
  content := by
    obtain ⟨mode, hnode⟩ := h.content
    exact ⟨_, mode, h.item?_place, hnode⟩
  others := h.within_of_erase
  back := h.folderOf
  cwd := h.cwd

theorem Landed.ne_root (h : Landed d place bytes d') : place ≠ [] := by
  obtain ⟨id, mode, hi, -⟩ := h.content
  rintro rfl
  cases hi

theorem Scratch.landed (h : Scratch d temp place bytes mid') (hl : Landed mid' b data d') :
    Landed d b data d' where
  leaf := by
    by_contra hfolder
    have hnone := hl.leaf
    rw [h.within.isFolderAt (by simpa using hfolder)] at hnone
    cases hnone
  content := hl.content
  others := (h.within.eraseItem hl.ne_root).trans hl.others
  back hp := h.folderOf_iff.mp (hl.back hp)
  cwd := hl.cwd.trans h.cwd

theorem Landed.discard (h : Landed d b data d') (hscratch : Scratch d temp place bytes mid') (hne : place ≠ b) :
    Landed d b data (Temp.discard d' temp) := by
  unfold Temp.discard
  split
  · rename_i after hunlink
    obtain ⟨folder, n, id, hf, -, -, -, rfl⟩ := unlink_ok.mp hunlink
    obtain ⟨home, m, hf', -, rfl⟩ := hscratch.named
    have hsame := h.back hf
    rw [hf'] at hsame
    cases hsame
    have hroot : folder ++ [n] ≠ [] := by simp
    obtain ⟨id, mode, hi, hnode⟩ := h.content
    refine ⟨h.leaf, ⟨id, mode, ?_, hnode⟩, ⟨fun {q item} hq => ?_, h.others.node⟩, fun hp => ?_, h.cwd⟩
    · rw [item?_eraseItem _ _ _ hroot, if_neg hne, hi]
    · have hq' := (within_eraseItem h.ne_root).item hq
      rw [item?_eraseItem _ _ _ hroot, if_neg, h.others.item hq]
      rintro rfl
      rw [hscratch.free] at hq'
      cases hq'
    · exact h.back ((within_eraseItem hroot).folderOf rfl hp)
  · exact h

/-- A route to a folder does without the entry that has been replaced, or is stopped there. -/
theorem Landed.route_or_stopped (h : Landed d b data d') (hr : d.Route .follow links here before mid)
    (hmid : d.isFolderAt mid) : (d.eraseItem b).Route .follow links here before mid ∨
      ∀ rest, rest ≠ [] → d'.walk .follow links here (before ++ rest) = .error .notFolder := by
  have hkept {q item} (hq : b ≠ q) (hi : d.item? q = some item) : (d.eraseItem b).item? q = some item := by
    rw [item?_eraseItem d b q h.ne_root, if_neg hq, hi]
  induction hr with
  | done => exact .inl .done
  | stay _ ih => exact (ih hmid).imp .stay fun hstop rest hrest => walk_stay.trans (hstop rest hrest)
  | slash _ ih => exact (ih hmid).imp .slash fun hstop rest hrest => walk_slash.trans (hstop rest hrest)
  | up _ ih => exact (ih hmid).imp .up fun hstop rest hrest => walk_up.trans (hstop rest hrest)
  | @folder _ here n mode _ _ _ hn hi _ ih =>
    have hq : b ≠ here ++ [n] := by
      rintro rfl
      have hleaf := h.leaf
      simp [isFolderAt, hi] at hleaf
    rcases ih hmid with hroute | hstop
    · exact .inl (.folder (by simp) hn (hkept hq hi) hroute)
    · refine .inr fun rest hrest => ?_
      rw [← hstop rest hrest]
      exact walk_folder hn (h.others.item (hkept hq hi))
  | @link _ here n id target _ _ _ hn hi hl _ _ ih =>
    by_cases hq : b = here ++ [n]
    · subst hq
      obtain ⟨id', mode, hi', hnode⟩ := h.content
      refine .inr fun rest hrest => walk_past_file hn hi' (by simp [hnode, Node.isLink]) ?_
      exact List.append_ne_nil_of_right_ne_nil _ hrest
    rcases ih hmid with hroute | hstop
    · exact .inl (.link (by simp) hn (hkept hq hi) hl (by simp) hroute)
    · refine .inr fun rest hrest => ?_
      rw [← hstop rest hrest, List.append_assoc]
      exact walk_link hn (h.others.item (hkept hq hi)) ((h.others.node (hkept hq hi)).trans hl)
  | leaf _ hi _ => simp [isFolderAt, hi] at hmid

-- ---------------------------------------------------------------------------
-- Paths that name their entry plainly
-- ---------------------------------------------------------------------------

/-- The last thing in the path is the name of its entry, and the folder is found without that entry. -/
def NamesPlainly (d : Disk) (p : Path) : Prop :=
  ∃ folder n, d.folderOf p = .ok (folder, .name n false) ∧
    (d.eraseItem (folder ++ [n])).folderOf p = .ok (folder, .name n false)

theorem namesPlainly_iff (hc : checkPath p = .ok ()) (hsteps : p.steps = before ++ .down n :: behind)
    (hbehind : ∀ step ∈ behind, step = .stay ∨ step = .slash)
    (hr : d.Route .follow linkLimit (d.start p) before folder) (hf : d.isFolderAt folder) :
    d.NamesPlainly p ↔ behind = [] ∧
      (d.eraseItem (folder ++ [n])).Route .follow linkLimit (d.start p) before folder := by
  constructor
  · rintro ⟨home, m, hnamed, hkept⟩
    obtain ⟨front, hfront, hto, -⟩ := folderOf_name hnamed
    rw [hsteps] at hfront
    obtain rfl : behind = [] := by
      rcases List.eq_nil_or_concat behind with rfl | ⟨front', step, rfl⟩
      · rfl
      · have hlast := congrArg List.getLast? hfront
        rw [List.concat_eq_append, ← List.cons_append, ← List.append_assoc, List.getLast?_concat] at hlast
        rcases hbehind step (by simp) with rfl | rfl <;> simp at hlast
    obtain ⟨rfl, hname⟩ := List.append_inj' hfront rfl
    cases hname
    obtain rfl := hto.unique hr
    obtain ⟨front', hfront', hroute, -⟩ := folderOf_name hkept
    rw [hsteps] at hfront'
    obtain ⟨rfl, -⟩ := List.append_inj' hfront' rfl
    exact ⟨rfl, hroute⟩
  · rintro ⟨rfl, hroute⟩
    refine ⟨folder, n, folderOf_of_steps hc hsteps hr hf, folderOf_of_steps hc hsteps hroute ?_⟩
    rwa [isFolderAt_eraseItem (by simp) (by simp)]

/-- A path finds what has landed at its entry exactly if it names the entry plainly. By any other path
something is in the way, rather than nothing there. -/
theorem Landed.stat_cases (h : d.Landed (folder ++ [n]) data d') (hn : Text.utf8Size n ≤ nameLimit)
    (hp : p ≠ []) (hsteps : p.steps = before ++ .down n :: behind)
    (hbehind : ∀ step ∈ behind, step = .stay ∨ step = .slash)
    (hr : d.Route .follow linkLimit (d.start p) before folder) (hf : d.isFolderAt folder) :
    d.NamesPlainly p ∧ d'.stat p = .ok (folder ++ [n]) ∨
      ¬ d.NamesPlainly p ∧ ∃ f, d'.stat p = .error f ∧ f.isNotFound = false := by
  obtain ⟨id, mode, hi, hnode⟩ := h.content
  have hfile : (d'.node id).isLink = false := by simp [hnode, Node.isLink]
  have hf' : d'.isFolderAt folder :=
    h.others.isFolderAt (by rwa [isFolderAt_eraseItem (by simp) (by simp)])
  cases hc : checkPath p with
  | error f =>
    refine .inr ⟨?_, f, by simp [stat, seek, locate, hc, bind, Except.bind], isNotFound_of_checkPath hc hp⟩
    rintro ⟨home, m, hnamed, -⟩
    have hok := (folderOf_ok.mp hnamed).1
    rw [hc] at hok
    cases hok
  | ok u =>
    have hplainly := namesPlainly_iff hc hsteps hbehind hr hf
    rw [← Within.start h.cwd] at hr hplainly
    have hblocked (hwalk : d'.walk .follow linkLimit (d'.start p) p.steps = .error .notFolder) :
        ∃ f, d'.stat p = .error f ∧ f.isNotFound = false :=
      ⟨.system .notFolder, by simp [stat, seek, locate, hc, hwalk, bind, Except.bind, Except.mapError], rfl⟩
    rcases h.route_or_stopped hr hf with hroute | hstop
    · have hroute' := hroute.within h.others
      by_cases hend : behind = []
      · subst hend
        refine .inl ⟨hplainly.mpr ⟨rfl, hroute⟩, seek_ok.mpr ⟨hc, ?_, by simp [hi]⟩⟩
        rw [hsteps]
        exact hroute'.append hf' (by simp) (by simp) fun links => .leaf hn hi (by simp [hfile])
      · refine .inr ⟨fun hnames => hend (hplainly.mp hnames).1, hblocked ?_⟩
        obtain ⟨fewer, -, hwalk⟩ := hroute'.walk_append hf'
        rw [hsteps, hwalk]
        exact walk_past_file hn hi hfile hend
    · refine .inr ⟨?_, hblocked (by rw [hsteps]; exact hstop _ (by simp))⟩
      intro hnames
      -- Without the entry the way is free, so the walk into the folder cannot be stopped.
      obtain ⟨-, hroute⟩ := hplainly.mp hnames
      obtain ⟨fewer, -, hwalk⟩ := (hroute.within h.others).walk_append hf'
      have hfound := hstop [.slash] (by simp)
      rw [hwalk, walk_found.mpr (.slash .done)] at hfound
      cases hfound

theorem Landed.stat_iff (h : d.Landed (folder ++ [n]) data d') (hn : Text.utf8Size n ≤ nameLimit)
    (hf : d.folderOf p = .ok (folder, .name n false)) : d'.stat p = .ok (folder ++ [n]) ↔ d.NamesPlainly p := by
  obtain ⟨before, hsteps, hr, hfolder⟩ := folderOf_name hf
  have hp : p ≠ [] := (checkPath_ok (folderOf_ok.mp hf).1).2.1
  rcases h.stat_cases hn hp hsteps (by simp) hr hfolder with ⟨hplainly, hstat⟩ | ⟨hodd, f, hstat, -⟩
  · exact iff_of_true hstat hplainly
  · exact iff_of_false (by simp [hstat]) hodd

-- ---------------------------------------------------------------------------
-- What becomes of the temporary file
-- ---------------------------------------------------------------------------

theorem Scratch.discard_stored (h : Scratch d temp place bytes mid') (hs : Stored d b data after)
    (hne : place ≠ b) : Temp.discard after temp = after := by
  unfold Temp.discard
  split
  · rename_i found hunlink
    obtain ⟨folder, n, id, hf, -, hi, -, -⟩ := unlink_ok.mp hunlink
    obtain ⟨folder', n', hf', -, rfl⟩ := h.named
    have hsame := hs.folderOf hf
    rw [hf'] at hsame
    cases hsame
    rw [hs.items, if_neg (Ne.symm hne), h.free] at hi
    cases hi
  · rfl

/-- A file that has been copied into place goes, if its path does without the entry that was replaced. -/
theorem Scratch.sameAt_discard (h : Scratch d temp place bytes mid') (hs : Stored mid' b data after) (hne : place ≠ b)
    (hkept : (d.eraseItem b).folderOf temp = d.folderOf temp) (hq : q ≠ b) : d.SameAt (Temp.discard after temp) q := by
  obtain ⟨folder, n, hf, hn, rfl⟩ := h.named
  obtain ⟨mode, hnode⟩ := h.content
  have hmid := (h.within.eraseItem hs.ne_root).folderOf h.cwd (hkept.trans hf)
  have hafter := hs.within_of_erase.folderOf hs.cwd hmid
  have hi : after.item? (folder ++ [n]) = some (.leaf d.freshId) := by
    rw [hs.items, if_neg hne.symm, h.item?_place]
  have hloose : (after.node d.freshId).isFixed = false := by
    simp [hs.nodes h.item?_place, hnode, Node.isFixed]
  have hunlink := unlink_ok.mpr ⟨folder, n, d.freshId, hafter, hn, hi, hloose, rfl⟩
  rw [Temp.discard, hunlink]
  by_cases hplace : folder ++ [n] = q
  · refine .of_item ?_ fun id hleaf => ?_
    · rw [← hplace, h.free, item?_eraseItem _ _ _ h.ne_root, if_pos rfl]
    · rw [← hplace, h.free] at hleaf
      cases hleaf
  · refine ((h.sameAt hplace).trans (hs.sameAt hq.symm)).trans (.of_item ?_ fun _ _ => rfl)
    rw [item?_eraseItem _ _ _ h.ne_root, if_neg hplace]

end Disk

namespace Mover

variable {d : Disk} {temp : Path} {place : Place} {data : Bytes}

/-- No rename is refused for a reason outside the disk. -/
def RefusesNothing (m : Mover) : Prop := ∀ s p q, m.refusal s p q = none

/-- A temporary file is renamed; or it is copied, after a rename that the disk allowed has been refused, and thrown
away; or nothing happens, for want of a place that it could have. -/
theorem move_scratch (m : Mover) (s : Session) (dst : Path) (h : d.Scratch temp place data s.disk)
    (hd : d.WellFormed) (hlockers : m.lockers.KeepDisk) :
    (∃ folder n, (m.move s temp dst).1 = true ∧ d.folderOf dst = .ok (folder, .name n false) ∧
      Text.utf8Size n ≤ nameLimit ∧ d.Stored (folder ++ [n]) data (m.move s temp dst).2.disk) ∨
    (∃ folder n committed, (m.move s temp dst).1 = true ∧ d.folderOf dst = .ok (folder, .name n false) ∧
      Text.utf8Size n ≤ nameLimit ∧ s.disk.Stored (folder ++ [n]) data committed ∧
      (m.move s temp dst).2.disk = Temp.discard committed temp ∧ ¬ m.RefusesNothing) ∨
    ((m.move s temp dst).1 = false ∧ s.disk.Same (m.move s temp dst).2.disk ∧
      (m.RefusesNothing → ¬ d.Yields dst)) := by
  have hbegin := decision_begin_of_keepDisk m s temp dst hlockers
  have htree : s.disk.WellFormed := h.wellFormed hd
  rcases move_decided m s temp dst with ⟨start, hdec, hdone, hr⟩ | ⟨start, hdec, hdone, hdisk⟩
  · rw [hdec] at hbegin
    rw [show start.disk = s.disk from hbegin] at hr
    obtain ⟨-, folder, n, hf, hn, hstored⟩ := h.rename hd hr
    exact .inl ⟨folder, n, hdone, hf, hn, hstored⟩
  · rw [hdec] at hbegin
    have hstart : start.disk = s.disk := hbegin
    have hrefused : m.RefusesNothing → ¬ d.Yields dst := by
      intro hnone hy
      obtain ⟨folder, n, hf, -, rfl⟩ := h.named
      obtain ⟨mode, hcontent⟩ := h.content
      obtain ⟨renamed, hr⟩ := Disk.rename_of_yields htree (h.folderOf_iff.mpr hf) h.item?_place
        (by simp [hcontent, Node.isFixed]) (h.yields_iff.mpr hy)
      simp [decision, rename, attempt, hnone s temp dst, hr] at hdec
    rw [hdone, hdisk]
    rcases copyThenRemove_ok m temp dst (hstart ▸ htree) (hstart ▸ h.reportsLength) with
      ⟨hfalse, hsame⟩ | ⟨htrue, b, found, committed, hb, hyields, -, hread, hstored, hafter⟩
    · exact .inr (.inr ⟨hfalse, hstart ▸ hsame, hrefused⟩)
    · rw [hstart] at hb hyields hread hstored
      obtain rfl : data = found := Except.ok.inj (h.read.symm.trans hread)
      have hy := h.yields_iff.mp hyields
      obtain ⟨folder, n, hf, hn, -⟩ := id hy
      obtain rfl : folder ++ [n] = b := by
        simpa [Disk.entry?_of_folderOf (h.folderOf_iff.mpr hf)] using hb
      exact .inr (.inl ⟨folder, n, committed, htrue, hf, hn, hstored, hafter, fun hnone => hrefused hnone hy⟩)

/-- The first rename is refused and no locker lets go, so what is moved is copied into place. -/
def copying : Mover where
  lockers := fun _ _ s => (false, s.world)
  refusal := fun s _ _ => if s.history = [] then some (.system .crossDevice) else none

end Mover

end SafeFiles
