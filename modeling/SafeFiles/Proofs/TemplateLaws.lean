import SafeFiles.Proofs.DocumentLaws
import SafeFiles.Proofs.TemplateSafetyLaws

/-!
# The template is loaded again

The suggested log file stands in the template as it is, and what looks like markup
in it is read as markup. Any markup takes up more text than it gives back
(`Markup.Fence.bounded`), so the path is read back exactly if it is `Legible`. The
file is found again unless the way to it leads through the link that it has
replaced, as a forthright path never does (`Config.template_loaded`).
-/

namespace SafeFiles

namespace Config

-- ---------------------------------------------------------------------------
-- The text of the template
-- ---------------------------------------------------------------------------

def templateStart : Text :=
  "<config>\n  <log_level>".toList ++ LogLevel.standard.name ++ "</log_level>\n  <log_file>".toList

def templateEnd : Text :=
  "\n  <use_trash>false</use_trash>\n  <durability>".toList ++ Durability.standard.name ++
    "</durability>\n</config>\n".toList

abbrev logTag : Text := "log_file".toList

variable {env : Environment} {log t : Text}

theorem template_eq (h : Location.log? env = some log) :
    template env = templateNotes.toList ++ (templateStart ++ (log ++ Markup.Fence.text logTag templateEnd)) := by
  have hend : Markup.Fence.text logTag templateEnd =
      "</log_file>\n  <use_trash>false</use_trash>\n  <durability>".toList ++
        (Durability.standard.name ++ "</durability>\n</config>\n".toList) := by decide +kernel
  rewrite [hend]
  unfold template templateStart
  simp only [h, Option.getD_some, List.append_assoc]

theorem templateNotes_eq : ∃ notes inside, templateNotes.toList = "<!--".toList ++ notes ∧
    Markup.cutMark "-->".toList notes = some (inside, ['\n']) := by
  have hnotes : templateNotes.toList = "<!--".toList ++ templateNotes.toList.drop 4 ∧
      (Markup.cutMark "-->".toList (templateNotes.toList.drop 4)).map Prod.snd = some ['\n'] := by
    unfold templateNotes
    simp only [String.toList_append]
    decide +kernel
  obtain ⟨hstart, hcut⟩ := hnotes
  obtain ⟨⟨inside, after⟩, hcut, rfl⟩ := Option.map_eq_some_iff.mp hcut
  exact ⟨_, inside, hstart, hcut⟩

theorem reads_templateStart (t : Text) : Markup.reads [] ('\n' :: (templateStart ++ t)) =
    [.text "\n".toList, .opened rootTag [], .text "\n  ".toList, .opened "log_level".toList [],
      .text LogLevel.standard.name, .closed, .text "\n  ".toList, .opened logTag []] ++
      Markup.reads [logTag, rootTag] t := by
  have hstart : templateStart = '<' :: (rootTag ++ '>' :: ("\n  ".toList ++ '<' :: ("log_level".toList ++ '>' ::
      (LogLevel.standard.name ++ '<' :: '/' :: ("log_level".toList ++ '>' ::
        ("\n  ".toList ++ '<' :: (logTag ++ ['>']))))))) := by
    decide +kernel
  show Markup.reads [] ("\n".toList ++ (templateStart ++ t)) = _
  rw [hstart]
  simp only [List.append_assoc, List.cons_append, List.nil_append]
  rw [Markup.reads_text (by decide) rfl (by simp [Markup.endsText]), Markup.reads_opened (by decide),
    Markup.reads_text (by decide) rfl (by simp [Markup.endsText]), Markup.reads_opened (by decide),
    Markup.reads_text (by decide) rfl (by simp [Markup.endsText]), Markup.reads_closed (by decide),
    Markup.reads_text (by decide) rfl (by simp [Markup.endsText]), Markup.reads_opened (by decide)]
  rfl

theorem fence_template : Markup.Fence logTag templateEnd where
  tag := by decide
  quiet := by
    have hquiet : templateEnd.all (· ∉ ['-', ']', '?']) := by decide +kernel
    simpa using hquiet
  nested outer := by
    have hend : templateEnd = "\n  ".toList ++ '<' :: ("use_trash".toList ++ '>' :: templateEnd.drop 14) := by
      decide +kernel
    rw [hend, Markup.reads_text (by decide) rfl (by simp [Markup.endsText]), Markup.reads_opened (by decide)]
    rfl

-- ---------------------------------------------------------------------------
-- What is read of the template
-- ---------------------------------------------------------------------------

def afterLog (log : Text) : List Markup :=
  Markup.joined (Markup.reads [logTag, rootTag] (log ++ Markup.Fence.text logTag templateEnd))

theorem read_template (h : Location.log? env = some log) : Document.read (template env) =
    Document.fields (.opened logTag [] :: afterLog log) [(.logLevel, LogLevel.standard.name)] := by
  obtain ⟨notes, inside, hnotes, hcut⟩ := templateNotes_eq
  have hread : Markup.read (template env) = Markup.reads [] ('\n' :: (templateStart ++
      (log ++ Markup.Fence.text logTag templateEnd))) := by
    rw [template_eq h, hnotes, List.append_assoc]
    exact Markup.reads_comment (Markup.cutMark_append hcut _)
  rw [Document.read, hread, reads_templateStart]
  simp only [List.cons_append, List.nil_append, Markup.joined]
  rfl

/-- No markup, no line end that is read as another one, and no blank at either end. -/
def Legible (log : Text) : Prop :=
  (∀ c ∈ log, c ∉ ['<', '&', '\r', '\u0085', '\u2028']) ∧ Text.trim log = log

instance (log : Text) : Decidable (Legible log) :=
  @instDecidableAnd _ _ (List.decidableBAll _ log) inferInstance

theorem legible_iff : Legible log ↔
    log.any Markup.endsText = false ∧ Markup.plainEnds log = log ∧ Text.trim log = log := by
  rw [Legible, Markup.plainEnds_eq_self_iff, ← and_assoc, List.any_eq_false, ← forall₂_and]
  simp [Markup.endsText, and_assoc]

theorem afterLog_of_plain (hne : log ≠ []) (h : log.any Markup.endsText = false) :
    afterLog log = .text (Markup.plainEnds log) :: .closed ::
      Markup.joined (Markup.reads [rootTag] templateEnd) := by
  rw [afterLog, Markup.reads_text hne h (by simp [Markup.Fence.text, Markup.endsText]), Markup.Fence.text,
    Markup.reads_closed fence_template.tag]
  rfl

theorem joined_templateEnd : Markup.joined (Markup.reads [rootTag] templateEnd) =
    [.text "\n  ".toList, .opened "use_trash".toList [], .text "false".toList, .closed, .text "\n  ".toList,
      .opened "durability".toList [], .text Durability.standard.name, .closed, .text "\n".toList, .closed,
      .text "\n".toList] := by
  decide +kernel

theorem ofFields_template (h : Text.nonBlank? t = some log) : ofFields [(.logLevel, LogLevel.standard.name),
    (.logFile, t), (.useTrash, "false".toList), (.durability, Durability.standard.name)] =
      .ok { logFile := some log } := by
  simp [ofFields, value, Table.get?, h, bind, Except.bind]
  rfl

/-- A path of a log file is read back from the template exactly if it is legible. -/
theorem parse_template (h : Location.log? env = some log) :
    parse (template env) = .ok { logFile := some log } ↔ Legible log := by
  obtain ⟨folder, -, hfolder⟩ := Option.map_eq_some_iff.mp h
  have hne : log ≠ [] := hfolder ▸ Path.join_ne_nil (by decide)
  have hfull : Text.trim (template env) ≠ [] := by
    obtain ⟨notes, -, hnotes, -⟩ := templateNotes_eq
    rw [template_eq h, hnotes]
    exact Text.trim_ne_nil (c := '<') (by decide) (by simp)
  rw [parse_eq_ok hfull, read_template h, legible_iff]
  constructor
  · rintro ⟨texts, hread, hfields⟩
    obtain ⟨f, t, rest, hname, -, hcontent, -, hrest⟩ := Document.fields_opened hread
    obtain rfl : .logFile = f := Option.some.inj hname
    have hlog := logFile_of_ofFields hfields
    rw [given, Document.fields_keep hrest (v := t) (by simp [Table.get?_set])] at hlog
    obtain ⟨htrim, -⟩ := Text.nonBlank?_eq_some_iff.mp hlog.symm
    -- The text is no longer than the path, and the path is what is left of it.
    obtain ⟨hlen, hplain⟩ := fence_template.bounded [rootTag] log t hcontent
    have hsub : log.Sublist t := htrim ▸ Text.trim_sublist t
    obtain rfl : log = t := hsub.eq_of_length_le hlen
    have hplain : log.any Markup.endsText = false := by simpa using hplain rfl
    rw [afterLog_of_plain hne hplain] at hcontent
    exact ⟨hplain, Option.some.inj hcontent, htrim⟩
  · rintro ⟨hplain, hends, htrim⟩
    refine ⟨_, ?_, ofFields_template (Text.nonBlank?_eq_some_iff.mpr ⟨htrim, hne⟩)⟩
    rw [afterLog_of_plain hne hplain, hends, joined_templateEnd]
    rfl

end Config

-- ---------------------------------------------------------------------------
-- Where the file is found
-- ---------------------------------------------------------------------------

namespace Disk

variable {d d' d'' : Disk} {folder : Place} {n : Name} {p : Path} {data : Bytes}

theorem Laid.namesPlainly (h : d.Laid p d') (hd : d.WellFormed) (hgate : d.throughLink p = .ok false)
    (hf : d'.folderOf p = .ok (folder, .name n false)) (hl : Landed d' (folder ++ [n]) data d'') :
    d'.NamesPlainly p := by
  obtain ⟨front, hsteps, hr, hfolder⟩ := folderOf_name hf
  have hkept {q mode} (hi : d'.item? q = some (.folder mode)) :
      (d'.eraseItem (folder ++ [n])).item? q = some (.folder mode) := by
    rw [item?_eraseItem _ _ _ hl.ne_root, if_neg, hi]
    rintro rfl
    have hleaf := hl.leaf
    simp [isFolderAt, hi] at hleaf
  refine (namesPlainly_iff (folderOf_ok.mp hf).1 hsteps (by simp) hr hfolder).mpr ⟨rfl, ?_⟩
  rw [Within.start h.grown.cwd] at hr ⊢
  have hdirect := h.direct hd hgate (Path.bare_of_steps false hsteps) ⟨_, List.mem_cons_self, by simp⟩ hr
  exact (hdirect.over_folders hfolder hkept).more (Nat.zero_le _)

end Disk

namespace Config

variable {s : Session} {p parent : Path} {log t : Text} {d : Disk} {place : Place} {mode : Mode}

theorem ofFile_of_stat (hstat : d.stat p = .ok place) (hnode : d.node? place = some (.file mode (Text.toUtf8 t))) :
    ofFile d p = (parse t).mapError (·.within s!"parse config xml '{shown p}'") := by
  rw [ofFile, Disk.readText_of_stat hstat hnode]

theorem ofFile_of_stat_error {f : Fault} (hstat : d.stat p = .error f) : ∃ r, ofFile d p = .error r :=
  ⟨_, by rw [ofFile, Disk.readText_of_stat_error hstat]⟩

/-- What has been created is read again unless nothing is found at its path any more. -/
theorem ofFile_created (hd : s.disk.WellFormed) (h : (createTemplate s p).1 = .ok ()) :
    (createTemplate s p).2.disk.there p = true ∧ ofFile (createTemplate s p).2.disk p =
        (parse (template s.world.env)).mapError (·.within s!"parse config xml '{shown p}'") ∨
      ¬ s.disk.Forthright p ∧ (createTemplate s p).2.disk.there p = false ∧
        ∃ r, ofFile (createTemplate s p).2.disk p = .error r := by
  rcases createTemplate_cases s p with ⟨⟨r, hr⟩, -⟩ | ⟨-, hgate, hresult, hafter⟩
  · rw [h] at hr
    cases hr
  rw [hresult] at h
  rw [hafter]
  rcases writeSecure_outcome hd p (Text.toUtf8 (template s.world.env)) with
    ⟨⟨r, hr⟩, -⟩ | ⟨parent, folder, n, hparent, -, hf, hstored, -, ⟨-, -, hstat⟩ | ⟨hodd, -, f, hstat⟩⟩
  · rw [h] at hr
    cases hr
  · obtain ⟨mode, hnode⟩ := hstored.node?_place
    exact .inl ⟨by rw [Disk.there, hstat]; rfl, ofFile_of_stat hstat hnode⟩
  · refine .inr ⟨fun hforth => hodd ?_, by rw [Disk.there, hstat]; rfl, ofFile_of_stat_error hstat⟩
    have hmade : s.disk.withParents p = (s.disk.makeFolders parent).2 := by simp [Disk.withParents, hparent]
    rw [hmade] at hf hstored ⊢
    exact (Disk.laid_makeFolders hd hforth hgate hparent).namesPlainly hd hgate hf hstored.landed

/-- A template that has been created gives its log file and nothing but standard values exactly if the log
file is legible and the path still leads somewhere, as a forthright one does. -/
theorem template_loaded (s : Session) (p : Path) (hd : s.disk.WellFormed)
    (hlog : Location.log? s.world.env = some log) (hdone : (createTemplate s p).1 = .ok ()) :
    (ofFile (createTemplate s p).2.disk p = .ok { logFile := some log } ↔
      Legible log ∧ (createTemplate s p).2.disk.there p = true) ∧
    (s.disk.Forthright p → (createTemplate s p).2.disk.there p = true) := by
  rcases ofFile_created hd hdone with ⟨hthere, hread⟩ | ⟨hodd, hmissing, r, hfail⟩
  · rw [hread, mapError_ok_iff, parse_template hlog]
    simp [hthere]
  · simp [hfail, hmissing, hodd]

def homeAt (home : Text) : Session where
  world := { disk := Session.linkedFolder.disk, env := [("HOME".toList, home)] }

def newFolder : Path := "d/../m/x".toList

theorem newFolder_loaded : (homeAt "/a b".toList).disk.WellFormed ∧
    Location.log? (homeAt "/a b".toList).world.env = some "/a b/.local/share/fs_guard/fs_guard.log".toList ∧
    (createTemplate (homeAt "/a b".toList) newFolder).1 = .ok () ∧
    (homeAt "/a b".toList).disk.Forthright newFolder ∧
    ofFile (createTemplate (homeAt "/a b".toList) newFolder).2.disk newFolder =
      .ok { logFile := some "/a b/.local/share/fs_guard/fs_guard.log".toList } := by
  have hd : (homeAt "/a b".toList).disk.WellFormed := .of_items (by decide)
  have hlog : Location.log? (homeAt "/a b".toList).world.env =
      some "/a b/.local/share/fs_guard/fs_guard.log".toList := by decide +kernel
  have hdone : (createTemplate (homeAt "/a b".toList) newFolder).1 = .ok () := by decide +kernel
  have hp : (homeAt "/a b".toList).disk.Forthright newFolder :=
    ⟨[.down ['d'], .up], [.down ['m'], .down ['x']], [], by decide, by decide, Disk.walk_found.mp (by decide),
      by decide⟩
  have hlegible : Legible "/a b/.local/share/fs_guard/fs_guard.log".toList := by decide +kernel
  obtain ⟨hloads, hthere⟩ := template_loaded _ newFolder hd hlog hdone
  exact ⟨hd, hlog, hdone, hp, hloads.mpr ⟨hlegible, hthere hp⟩⟩

/-- The template is created, but its log file is taken for markup. -/
theorem newFolder_misread : (homeAt "/a&b".toList).disk.WellFormed ∧
    Location.log? (homeAt "/a&b".toList).world.env = some "/a&b/.local/share/fs_guard/fs_guard.log".toList ∧
    (createTemplate (homeAt "/a&b".toList) newFolder).1 = .ok () ∧
    ofFile (createTemplate (homeAt "/a&b".toList) newFolder).2.disk newFolder ≠
      .ok { logFile := some "/a&b/.local/share/fs_guard/fs_guard.log".toList } := by
  have hd : (homeAt "/a&b".toList).disk.WellFormed := .of_items (by decide)
  have hlog : Location.log? (homeAt "/a&b".toList).world.env =
      some "/a&b/.local/share/fs_guard/fs_guard.log".toList := by decide +kernel
  have hdone : (createTemplate (homeAt "/a&b".toList) newFolder).1 = .ok () := by decide +kernel
  refine ⟨hd, hlog, hdone, fun hload => ?_⟩
  rcases ofFile_created hd hdone with ⟨-, hread⟩ | ⟨-, -, r, hfail⟩
  · rw [hread, mapError_ok_iff, parse_template hlog] at hload
    exact absurd hload (by decide +kernel)
  · rw [hfail] at hload
    cases hload

end Config

end SafeFiles
