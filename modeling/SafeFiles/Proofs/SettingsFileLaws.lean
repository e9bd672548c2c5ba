import SafeFiles.Proofs.Path.ComponentLaws
import SafeFiles.Proofs.SaveLaws
import SafeFiles.Proofs.SettingsLaws
import SafeFiles.Settings.File

/-!
# Stored settings are loaded again

Settings are stored under the file name of their path in its folder part, and loaded
from the path as it is spelled. The two agree if the path names its entry plainly
(`Disk.NamesPlainly`): without a slash or a dot behind the name, in fewer bytes than
a path may have, and along a way that the entry is not on itself. Then what is loaded
is what was stored; from any other path nothing is loaded (`Settings.load_stored`).
-/

namespace SafeFiles

theorem Text.ofUtf8?_toUtf8 (t : Text) : ofUtf8? (toUtf8 t) = some t := by
  have hbytes : ByteArray.mk (toUtf8 t).toArray = (String.ofList t).toByteArray := by
    simp [toUtf8, String.toUTF8_eq_toByteArray]
  simp only [ofUtf8?, hbytes, String.fromUTF8?, dif_pos (String.ofList t).isValidUTF8]
  exact congrArg some String.toList_ofList

-- ---------------------------------------------------------------------------
-- The folder part and the file name
-- ---------------------------------------------------------------------------

namespace Path

variable {p : Path} {n : Name}

theorem moves_folderPart (h : p.fileName? = some n) : (Component.name n).IsInner ∧
    p.folderPart.isAbsolute = p.isAbsolute ∧ p.moves = p.folderPart.moves ++ [.down n] := by
  obtain ⟨inner, hinner, hcs, hmoves⟩ := components_spec p
  have hlast : p.components.getLast? = some (.name n) := by
    unfold fileName? at h
    split at h
    · cases h
      assumption
    · cases h
  obtain ⟨front, rfl⟩ : ∃ front, inner = front ++ [.name n] := by
    rcases List.eq_nil_or_concat inner with rfl | ⟨front, c, rfl⟩
    · rw [hcs, List.append_nil] at hlast
      cases hlead : p.parts.1 <;> simp [hlead, Lead.components] at hlast
    · rw [hcs, List.concat_eq_append, ← List.append_assoc, List.getLast?_concat] at hlast
      exact ⟨front, by rw [Option.some.inj hlast, List.concat_eq_append]⟩
  rw [List.filterMap_append] at hmoves
  have hne : p.moves ≠ [] := by simp [hmoves, Component.step?]
  refine ⟨hinner _ (by simp), ?_⟩
  cases hparent : p.parent? with
  | none => exact absurd (moves_of_no_parent hparent) hne
  | some a =>
    obtain ⟨habs, c, hc, hsplit⟩ := (moves_of_parent? hparent).resolve_right fun hlone => hne hlone.2
    obtain ⟨step, hstep, -⟩ := Component.step?_isSome hc
    rw [hmoves, hstep] at hsplit
    obtain ⟨hfront, -⟩ := List.append_inj' hsplit rfl
    have hsame : p.folderPart.isAbsolute = a.isAbsolute ∧ p.folderPart.moves = a.moves := by
      rw [folderPart, hparent]
      cases a with
      | nil => exact ⟨rfl, rfl⟩
      | cons c rest => exact ⟨rfl, rfl⟩
    rw [hsame.1, hsame.2, ← hfront]
    exact ⟨habs, hmoves⟩

/-- Behind the file name stand dots and a slash at most. -/
theorem steps_of_fileName? (h : p.fileName? = some n) : ∃ before behind,
    p.steps = before ++ .down n :: behind ∧ (∀ step ∈ behind, step = .stay ∨ step = .slash) ∧
      before.filter (· ≠ .stay) = p.folderPart.moves := by
  obtain ⟨-, -, hmoves⟩ := moves_folderPart h
  rw [← filter_bare] at hmoves
  obtain ⟨front, rest, hbare, hfront, hrest⟩ := List.filter_eq_append_iff.mp hmoves
  obtain ⟨idle, behind, rfl, hidle, -, hbehind⟩ := List.filter_eq_cons_iff.mp hrest
  have hstays : ∀ step ∈ behind, step = .stay := by
    intro step hstep
    simpa using List.filter_eq_nil_iff.mp hbehind step hstep
  have hbefore : (front ++ idle).filter (· ≠ .stay) = p.folderPart.moves := by
    rw [List.filter_append, hfront, List.filter_eq_nil_iff.mpr hidle, List.append_nil]
  rw [← List.append_assoc] at hbare
  rcases p.steps_eq with hs | hs
  · exact ⟨front ++ idle, behind, hs.trans hbare, fun step hstep => .inl (hstays step hstep), hbefore⟩
  · refine ⟨front ++ idle, behind ++ [.slash], by rw [hs, hbare]; simp, fun step hstep => ?_, hbefore⟩
    rcases List.mem_append.mp hstep with hstep | hstep
    · exact .inl (hstays step hstep)
    · exact .inr (List.mem_singleton.mp hstep)

end Path

-- ---------------------------------------------------------------------------
-- The text of a settings file
-- ---------------------------------------------------------------------------

namespace Disk

variable {d : Disk} {p : Path} {folder : Place} {m n : Name} {before : List Step}

/-- The way to the folder part is the way that the path takes to its file name. -/
theorem route_of_folderPart (h : p.fileName? = some n)
    (hf : d.folderOf (p.folderPart.join n) = .ok (folder, .name m false))
    (hbefore : before.filter (· ≠ .stay) = p.folderPart.moves) :
    m = n ∧ d.Route .follow linkLimit (d.start p) before folder ∧ d.isFolderAt folder := by
  obtain ⟨⟨hempty, hdot, hdots, hslash⟩, habs, -⟩ := Path.moves_folderPart h
  have hrel : Path.isAbsolute n = false := (Component.text_ends (c := .name n) ⟨hempty, hdot, hdots, hslash⟩).2.1
  have hplain : n.IsPlain := by
    refine ⟨hempty, hdot, hdots, hslash, fun hnul => ?_⟩
    have hok := (checkPath_ok (folderOf_ok.mp hf).1).1
    obtain ⟨between, hjoin⟩ := Path.exists_join_eq p.folderPart
    rw [hjoin n hrel] at hok
    simp [Path.hasNul, hnul] at hok
  obtain ⟨front, hsteps, hr, hfolder⟩ := folderOf_name hf
  rw [Path.steps_join _ hplain] at hsteps
  obtain ⟨rfl, hlast⟩ := List.append_inj' hsteps rfl
  rw [start_join d _ hplain, start_eq rfl habs, ← Route.moves_iff hfolder, ← hbefore] at hr
  refine ⟨?_, (Route.filter_iff [] hfolder).mp hr, hfolder⟩
  cases hlast
  rfl

theorem readText_of_stat {place : Place} {t : Text} {mode : Mode} (hstat : d.stat p = .ok place)
    (hnode : d.node? place = some (.file mode (Text.toUtf8 t))) : d.readText p = .ok t := by
  have hread : d.read p = .ok (Text.toUtf8 t) :=
    bind_eq_ok.mpr ⟨place, hstat, by simp [sourceAt, hnode]⟩
  exact bind_eq_ok.mpr ⟨_, hread, by simp [Text.ofUtf8?_toUtf8]⟩

theorem readText_of_stat_error {f : Fault} (hstat : d.stat p = .error f) : d.readText p = .error f := by
  simp [readText, read, hstat, bind, Except.bind]

end Disk

-- ---------------------------------------------------------------------------
-- Settings files
-- ---------------------------------------------------------------------------

namespace Settings

open Mover (copying)

variable {settings : Settings} {m : Mover} {p : Path} {s : Session} {d : Disk} {place : Place}

theorem load_of_stat {t : Text} {mode : Mode} (hstat : d.stat p = .ok place)
    (hnode : d.node? place = some (.file mode (Text.toUtf8 t))) : load d p = .ok (parse t) := by
  rw [load, Disk.readText_of_stat hstat hnode]

theorem load_of_stat_error {f : Fault} (hstat : d.stat p = .error f) (hf : f.isNotFound = false) :
    load d p = .error (.explained "read settings" p f) := by
  rw [load, Disk.readText_of_stat_error hstat]
  simp [hf]

theorem store_ok (h : (settings.store m p s).1 = .ok ()) : ∃ n, p.fileName? = some n ∧
    (Save.run ⟨p.folderPart, n, Text.toUtf8 settings.render⟩ m s).1 = true ∧
    (settings.store m p s).2 = (Save.run ⟨p.folderPart, n, Text.toUtf8 settings.render⟩ m s).2 := by
  unfold store at h ⊢
  cases hname : p.fileName? with
  | none =>
    rw [hname] at h
    cases h
  | some n =>
    rw [hname] at h
    simp only at h ⊢
    refine ⟨n, rfl, ?_⟩
    rcases hrun : Save.run ⟨p.folderPart, n, Text.toUtf8 settings.render⟩ m s with ⟨_ | _, after⟩
    · rw [hrun] at h
      cases h
    · exact ⟨rfl, rfl⟩

/-- Once settings have been stored, a path that names its entry plainly loads them, whatever renames were
refused on the way. Any other path loads nothing: the file stands in its way, or its text is too long. -/
theorem load_stored (settings : Settings) (m : Mover) (p : Path) (s : Session) (hd : s.disk.WellFormed)
    (hlockers : m.lockers.KeepDisk) (hsurvive : ∀ entry ∈ settings.entries, Survives entry)
    (hstore : (settings.store m p s).1 = .ok ()) :
    (s.disk.NamesPlainly p → load (settings.store m p s).2.disk p = .ok settings) ∧
    (¬ s.disk.NamesPlainly p → (load (settings.store m p s).2.disk p).isOk = false) := by
  obtain ⟨n, hname, hdone, hafter⟩ := store_ok hstore
  rw [hafter]
  obtain ⟨folder, n', htarget, hn, hlanded, -⟩ := Save.run_stands hd hlockers hdone
  obtain ⟨before, behind, hsteps, hbehind, hbefore⟩ := Path.steps_of_fileName? hname
  obtain ⟨rfl, hr, hf⟩ := Disk.route_of_folderPart hname htarget hbefore
  have hp : p ≠ [] := by
    rintro rfl
    cases hname
  obtain ⟨id, mode, hi, hnode⟩ := hlanded.content
  rcases hlanded.stat_cases hn hp hsteps hbehind hr hf with ⟨hplainly, hstat⟩ | ⟨hodd, f, hstat, hmissing⟩
  · refine ⟨fun _ => ?_, fun hodd => absurd hplainly hodd⟩
    rw [load_of_stat hstat ((Disk.node?_of_leaf hi).trans (congrArg some hnode)), parse_render_of_survives hsurvive]
  · refine ⟨fun hplainly => absurd hplainly hodd, fun _ => ?_⟩
    rw [load_of_stat_error hstat hmissing]
    rfl

def oneSetting : Settings := ⟨[(['k', ' '], ['#', '='])], by simp⟩

def throughLink : Path := "l/./n".toList

theorem throughLink_loaded : Mover.besideLink.disk.WellFormed ∧ copying.lockers.KeepDisk ∧
    (∀ entry ∈ oneSetting.entries, Survives entry) ∧
    (oneSetting.store copying throughLink Mover.besideLink).1 = .ok () ∧
    Mover.besideLink.disk.NamesPlainly throughLink ∧
    load (oneSetting.store copying throughLink Mover.besideLink).2.disk throughLink = .ok oneSetting := by
  have hd : Mover.besideLink.disk.WellFormed := .of_items (by decide)
  have hk : copying.lockers.KeepDisk := fun _ _ _ => rfl
  have hsurvive : ∀ entry ∈ oneSetting.entries, Survives entry := by
    intro entry hentry
    obtain rfl : entry = (['k', ' '], ['#', '=']) := List.mem_singleton.mp hentry
    refine ⟨?_, ?_, ?_⟩
    all_goals
      rintro c ⟨⟩
      rfl
  have hstore : (oneSetting.store copying throughLink Mover.besideLink).1 = .ok () := by decide +kernel
  have hplainly : Mover.besideLink.disk.NamesPlainly throughLink :=
    ⟨[['d']], ['n'], by decide +kernel, by decide +kernel⟩
  exact ⟨hd, hk, hsurvive, hstore, hplainly,
    (load_stored oneSetting copying throughLink Mover.besideLink hd hk hsurvive hstore).1 hplainly⟩

/-- The slash behind the name is no matter to the store, but the load is refused. -/
theorem load_refused_behind_slash :
    (oneSetting.store { lockers := .idle } "d/n/".toList Mover.besideLink).1 = .ok () ∧
    (load (oneSetting.store { lockers := .idle } "d/n/".toList Mover.besideLink).2.disk "d/n/".toList).isOk =
      false := by
  decide +kernel

end Settings

end SafeFiles
