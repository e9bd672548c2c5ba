import SafeFiles.Command.Parse
import SafeFiles.Command.Run
import SafeFiles.Proofs.ContainmentLaws
import SafeFiles.Proofs.Disk.RefillLaws
import SafeFiles.Proofs.FileCopyLaws
import SafeFiles.Proofs.TemplateLaws
import SafeFiles.Proofs.Tree.DeleteLaws

/-!
# Deletions that spare the trash

A command line can ask for a permanent deletion whatever the configuration says about
the trash. The bytes of the configuration are read once and change nothing that is
done afterwards (`Session.deleteTree_refill`, `Arguments.startLog_refill`), so where the
platform has a trash both configurations give one outcome, that of the deletion. Where
it has none, a configuration that asks for the trash is refused before the command is
looked at, and the switch does not count (`Arguments.delete_noTrash_agrees_iff`).
-/

namespace SafeFiles

-- ---------------------------------------------------------------------------
-- Deletions beside a file with other bytes
-- ---------------------------------------------------------------------------

namespace Session

variable {s : Session} {id : NodeId} {mode : Mode} {bytes : Bytes} {p root : Path} {names : List Name}
  {delete : Path → Session → Bool × Session}

def refill (s : Session) (id : NodeId) (mode : Mode) (bytes : Bytes) : Session :=
  s.withDisk (s.disk.refill id mode bytes)

@[simp] theorem disk_refill : (s.refill id mode bytes).disk = s.disk.refill id mode bytes := rfl

theorem deleteTree_nodes (s : Session) (p : Path) : (s.deleteTree p).2.disk.nodes = s.disk.nodes :=
  deleteTree_keeps (Disk.outlivesRemoval_nodes s.disk.nodes) s p rfl

theorem outlivesRemoval_hasFile (id : NodeId) : Disk.OutlivesRemoval (Disk.HasFile · id) := by
  intro d p d' hd h
  rwa [Disk.HasFile, Disk.outlivesRemoval_nodes d.nodes rfl h]

theorem disk_of_canonicalize {found : Session} {result : Except Failure Path}
    (h : s.canonicalize p = (result, found)) : found.disk = s.disk := by
  obtain ⟨-, rfl⟩ := Prod.mk.inj h
  exact disk_noteResolution s p

theorem canonicalize_refill (h : s.disk.HasFile id) : (s.refill id mode bytes).canonicalize p =
    ((s.canonicalize p).1, (s.canonicalize p).2.refill id mode bytes) := by
  have hthrough : (s.disk.refill id mode bytes).isThroughAncestor p = s.disk.isThroughAncestor p := by
    simp only [Disk.isThroughAncestor, h.realPlace_refill, h.canonicalPlace_refill]
  simp only [canonicalize, noteResolution, hthrough, disk_refill, Disk.canonicalize, h.canonicalPlace_refill]
  cases s.disk.isThroughAncestor p <;> rfl

theorem removed_refill (removal : Except Fault Disk) :
    (s.refill id mode bytes).removed p (removal.map (·.refill id mode bytes)) =
      ((s.removed p removal).1, (s.removed p removal).2.refill id mode bytes) := by
  cases removal <;> rfl

theorem deleteEach_refill (hkeeps : ∀ child s, s.disk.HasFile id → (delete child s).2.disk.HasFile id)
    (hdelete : ∀ child s, s.disk.HasFile id → delete child (s.refill id mode bytes) =
      ((delete child s).1, (delete child s).2.refill id mode bytes)) (h : s.disk.HasFile id) :
    deleteEach root delete p names (s.refill id mode bytes) =
      ((deleteEach root delete p names s).1, (deleteEach root delete p names s).2.refill id mode bytes) := by
  induction names generalizing s with
  | nil => rfl
  | cons name names ih =>
    simp only [deleteEach, canonicalize_refill h]
    rcases hc : s.canonicalize (p.join name) with ⟨_ | real, found⟩
    · rfl
    · have hfound : found.disk.HasFile id := by rwa [disk_of_canonicalize hc]
      simp only
      split
      · exact ih (s := found.log _ _ _) hfound
      · rw [hdelete _ _ hfound]
        have hafter := hkeeps (p.join name) found hfound
        rcases hdone : delete (p.join name) found with ⟨_ | _, after⟩
        · rfl
        · rw [hdone] at hafter
          exact ih hafter

theorem deleteWithin_refill (root : Path) (depth : Nat) (p : Path) (h : s.disk.HasFile id) :
    deleteWithin root depth p (s.refill id mode bytes) =
      ((deleteWithin root depth p s).1, (deleteWithin root depth p s).2.refill id mode bytes) := by
  induction depth generalizing p s with
  | zero => rfl
  | succ depth ih =>
    simp only [deleteWithin, disk_refill, h.lstat_refill, Disk.isFolderAt_refill, h.list_refill, h.unlink_refill]
    cases s.disk.lstat p with
    | error f => rfl
    | ok place =>
      simp only
      split
      · exact removed_refill _
      cases s.disk.list p with
      | error f => rfl
      | ok listed =>
        have hkeeps := deleteWithin_keeps (outlivesRemoval_hasFile id) root depth
        have hlisted : (deleteEach root (deleteWithin root depth) p listed.2 s).2.disk.HasFile id :=
          deleteEach_keeps (P := (Disk.HasFile · id)) root p hkeeps listed.2 s h
        simp only
        rw [deleteEach_refill hkeeps (fun child s hs => ih child hs) h]
        rcases hdone : deleteEach root (deleteWithin root depth) p listed.2 s with ⟨_ | _, after⟩
        · rfl
        · rw [hdone] at hlisted
          simp only [disk_refill, Disk.HasFile.removeFolder_refill hlisted]
          exact removed_refill _

theorem deleteTree_refill (h : s.disk.HasFile id) (p : Path) : (s.refill id mode bytes).deleteTree p =
    ((s.deleteTree p).1, (s.deleteTree p).2.refill id mode bytes) := by
  simp only [deleteTree, canonicalize_refill h]
  rcases hc : s.canonicalize p with ⟨_ | root, found⟩
  · rfl
  · have hfound : found.disk.HasFile id := by rwa [disk_of_canonicalize hc]
    simp only [deleteWithin_refill root pathLimit p hfound]
    rcases deleteWithin root pathLimit p found with ⟨_ | _, after⟩ <;> rfl

theorem deleteTree_of_vacant (h : s.disk.occupied p = false) :
    (s.deleteTree p).1 = false ∧ (s.deleteTree p).2.disk = s.disk := by
  unfold deleteTree
  rcases hc : s.canonicalize p with ⟨_ | root, found⟩
  · exact ⟨rfl, disk_of_canonicalize hc⟩
  · rw [← disk_of_canonicalize hc, Disk.occupied] at h
    have hwithin : deleteWithin root pathLimit p found = (false, found) := by
      rw [pathLimit, deleteWithin]
      cases hl : found.disk.lstat p with
      | error f => rfl
      | ok place => simp [hl, Except.isOk, Except.toBool] at h
    simp only [hwithin]
    exact ⟨trivial, disk_of_canonicalize hc⟩

end Session

-- ---------------------------------------------------------------------------
-- Runs beside a file with other bytes
-- ---------------------------------------------------------------------------

def Run.refill (r : Run) (id : NodeId) (mode : Mode) (bytes : Bytes) : Run :=
  r.withSession (r.session.refill id mode bytes)

theorem Location.config?_refill {d : Disk} {id : NodeId} (h : d.HasFile id) (env : Environment) (mode : Mode)
    (bytes : Bytes) : config? env (d.refill id mode bytes) = config? env d := by
  have hnamed (value : Path) : named (d.refill id mode bytes) value = named d value := by
    simp only [named, h.isFolder_refill]
    rfl
  simp only [config?, hnamed]

theorem Config.validate_refill {d : Disk} {id : NodeId} (h : d.HasFile id) (config : Config) (mode : Mode)
    (bytes : Bytes) (hasTrash : Bool) :
    config.validate (d.refill id mode bytes) hasTrash = config.validate d hasTrash := by
  have hcheck (p : Path) : checkLogFile (d.refill id mode bytes) p = checkLogFile d p := by
    simp only [checkLogFile, h.throughLink_refill, h.lstat_refill, h.isLinkAt_refill, Disk.isFolderAt_refill]
  simp only [validate, hcheck]

theorem Disk.within_openLog (d : Disk) (p : Path) : d.Within (d.openLog p).2 := by
  obtain ⟨made, hmade, hopen⟩ := Disk.openLog_cases d p
  have hw : d.Within made := by
    rcases hmade with rfl | ⟨parent, -, rfl⟩
    · exact .refl made
    · exact Disk.within_makeFolders d parent
  rcases hopen with ⟨place, ho, -⟩ | ⟨hsame, -⟩
  · exact hw.trans (Disk.within_openWrite ho).1
  · rwa [hsame]

namespace Arguments

variable {a : Arguments} {r : Run} {config : Config} {id : NodeId} {mode : Mode} {bytes stdin : Bytes} {p : Path}
  {t on off : Text}

theorem openLogFile_refill (h : r.disk.HasFile id) (p : Path) :
    openLogFile p (r.refill id mode bytes) = ((openLogFile p r).1, (openLogFile p r).2.refill id mode bytes) := by
  have hgate : (r.refill id mode bytes).disk.throughLink p = r.disk.throughLink p := h.throughLink_refill
  have hopen : (r.refill id mode bytes).disk.openLog p =
      ((r.disk.openLog p).1, (r.disk.openLog p).2.refill id mode bytes) := h.openLog_refill
  simp only [openLogFile, hgate, hopen]
  rcases r.disk.throughLink p with f | _ | _
  · rfl
  · rcases r.disk.openLog p with ⟨_ | _, after⟩ <;> rfl
  · rfl

/-- The start of the log looks at no bytes, those of the configuration among them. -/
theorem startLog_refill (h : r.disk.HasFile id) :
    startLog config (r.refill id mode bytes) = (startLog config r).refill id mode bytes := by
  unfold startLog
  cases config.logFile with
  | none => rfl
  | some p =>
    simp only [openLogFile_refill h]
    rcases openLogFile p r with ⟨_ | _, after⟩
    · simp only [show (after.refill id mode bytes).env = after.env from rfl]
      cases Location.log? after.env <;> rfl
    · rfl

theorem openLogFile_disk (p : Path) (r : Run) :
    (openLogFile p r).2.disk = r.disk ∨ (openLogFile p r).2.disk = (r.disk.openLog p).2 := by
  unfold openLogFile
  rcases r.disk.throughLink p with f | _ | _
  · exact .inl rfl
  · rcases r.disk.openLog p with ⟨_ | _, after⟩ <;> exact .inr rfl
  · exact .inl rfl

/-- At most a log file is opened, the one that the configuration names. -/
theorem startLog_disk (config : Config) (r : Run) : (startLog config r).disk = r.disk ∨
    ∃ p, config.logFile = some p ∧ (startLog config r).disk = (r.disk.openLog p).2 := by
  unfold startLog
  cases config.logFile with
  | none => exact .inl rfl
  | some p =>
    have hopened := openLogFile_disk p r
    simp only
    generalize openLogFile p r = opened at hopened ⊢
    rcases opened with ⟨_ | _, after⟩
    · simp only
      cases Location.log? after.env <;> exact hopened.imp (fun h => h) fun h => ⟨p, rfl, h⟩
    · exact hopened.imp (fun h => h) fun h => ⟨p, rfl, h⟩

theorem within_startLog (config : Config) (r : Run) : r.disk.Within (startLog config r).disk := by
  rcases startLog_disk config r with hsame | ⟨p, -, hopened⟩
  · rw [hsame]
    exact .refl _
  · rw [hopened]
    exact Disk.within_openLog r.disk p

theorem hasFile_startLog (h : r.disk.HasFile id) (config : Config) : (startLog config r).disk.HasFile id := by
  rcases startLog_disk config r with hsame | ⟨p, -, hopened⟩
  · rwa [hsame]
  · rw [hopened]
    exact h.openLog p

-- ---------------------------------------------------------------------------
-- The configuration that is read
-- ---------------------------------------------------------------------------

/-- The run finds its configuration in the file `id`, which holds the text `t`. -/
structure Reads (a : Arguments) (r : Run) (id : NodeId) (mode : Mode) (t : Text) : Prop where
  leads : ∃ p place, a.config.or (Location.config? r.env r.disk) = some p ∧ r.disk.stat p = .ok place ∧
    r.disk.item? place = some (.leaf id)
  holds : r.disk.nodes.get? id = some (.file mode (Text.toUtf8 t))

theorem Reads.hasFile (h : a.Reads r id mode t) : r.disk.HasFile id := ⟨mode, Text.toUtf8 t, h.holds⟩

theorem Reads.refill (h : a.Reads r id mode t) (other : Text) :
    a.Reads (r.refill id mode (Text.toUtf8 other)) id mode other where
  leads := by
    obtain ⟨p, place, hsource, hstat, hitem⟩ := h.leads
    refine ⟨p, place, ?_, ?_, ?_⟩
    · exact (congrArg a.config.or (Location.config?_refill h.hasFile r.env mode _)).trans hsource
    · exact h.hasFile.stat_refill.trans hstat
    · exact Disk.item?_refill.trans hitem
  holds := by
    change (r.disk.nodes.set id (.file mode (Text.toUtf8 other))).get? id = _
    rw [Table.get?_set, if_pos rfl]

theorem Reads.load (h : a.Reads r id mode t) (hparse : Config.parse t = .ok config) :
    ∃ p, Config.load r.env r.disk a.config = .ok ⟨config, some p⟩ := by
  obtain ⟨p, place, hsource, hstat, hitem⟩ := h.leads
  have hnode : r.disk.node? place = some (.file mode (Text.toUtf8 t)) := by
    rw [Disk.node?_of_leaf hitem, Disk.node, h.holds]
    rfl
  have hfile : Config.ofFile r.disk p = .ok config := by
    rw [Config.ofFile_of_stat hstat hnode, hparse]
    rfl
  refine ⟨p, ?_⟩
  cases hexplicit : a.config with
  | some q =>
    obtain rfl : q = p := by simpa [hexplicit] using hsource
    have hthere : r.disk.there q = true := by rw [Disk.there, hstat]; rfl
    simp only [Config.load, hthere, if_true, hfile]
    rfl
  | none =>
    rw [hexplicit, Option.none_or] at hsource
    have hisFile : r.disk.isFile p = true := by simp [Disk.isFile, hstat, hnode, Node.isFile]
    simp only [Config.load, hsource, hisFile, if_true, hfile]
    rfl

-- ---------------------------------------------------------------------------
-- Permanent deletions
-- ---------------------------------------------------------------------------

/-- The arguments ask for a deletion of `p` that spares the trash, and for nothing else. -/
structure SparesTrash (a : Arguments) (p : Path) : Prop where
  command : a.command = some (.delete p false true)
  printConfig : a.printConfig = false
  initConfig : a.initConfig = false

/-- A run that has ended as the deletion of `p` for good does in the session `s`. -/
structure Deleted (s : Session) (p : Path) (x : Nat × Run) : Prop where
  code : x.1 = if (s.deleteTree p).1 then 0 else 2
  disk : x.2.disk = (s.deleteTree p).2.disk

/-- The command alone does not look at the configuration or at the trash. -/
theorem runDelete_noTrash (config : Config) (p : Path) (r : Run) :
    ((Command.runDelete config p false true r).1 = .ok 0 ∧ (r.session.deleteTree p).1 = true ∨
      ∃ text, (Command.runDelete config p false true r).1 = .error (.ofText text) ∧
        (r.session.deleteTree p).1 = false) ∧
    (Command.runDelete config p false true r).2.disk = (r.session.deleteTree p).2.disk := by
  cases hocc : r.session.disk.occupied p with
  | false =>
    obtain ⟨hfails, hsame⟩ := Session.deleteTree_of_vacant hocc
    have hocc' : r.disk.occupied p = false := hocc
    simp only [Command.runDelete, hocc']
    exact ⟨.inr ⟨_, rfl, hfails⟩, hsame.symm⟩
  | true =>
    have hocc' : r.disk.occupied p = true := hocc
    simp only [Command.runDelete, hocc', Session.dispose, hocc, Command.wantsTrash]
    rcases r.session.deleteTree p with ⟨_ | _, after⟩
    · exact ⟨.inr ⟨_, rfl, rfl⟩, rfl⟩
    · exact ⟨.inl ⟨rfl, rfl⟩, rfl⟩

theorem run_refused (ha : a.SparesTrash p) {loaded : Config.Loaded} {report : Report}
    (hload : Config.load r.env r.disk a.config = .ok loaded)
    (hinvalid : (a.override loaded.config).validate r.disk r.trash?.isSome = .error report) (stdin : Bytes) :
    a.run stdin r = (.error report, r) := by
  simp [run, ha.printConfig, ha.initConfig, runCommand, hload, hinvalid]

/-- Where the configuration is accepted, the run is the deletion for good, once the log has started. -/
theorem run_deletes (ha : a.SparesTrash p) {loaded : Config.Loaded}
    (hload : Config.load r.env r.disk a.config = .ok loaded)
    (hvalid : (a.override loaded.config).validate r.disk r.trash?.isSome = .ok ()) (stdin : Bytes) :
    Deleted (startLog (a.override loaded.config) r).session p (complete (a.run stdin r)) := by
  obtain ⟨hresult, hdisk⟩ := runDelete_noTrash (a.override loaded.config) p (startLog (a.override loaded.config) r)
  simp only [run, ha.printConfig, ha.initConfig, runCommand, hload, hvalid, ha.command, Command.run]
  generalize Command.runDelete (a.override loaded.config) p false true (startLog (a.override loaded.config) r) =
    ended at hresult hdisk ⊢
  obtain ⟨result, after⟩ := ended
  rcases hresult with ⟨rfl, hdone⟩ | ⟨text, rfl, hfails⟩
  · exact ⟨by simp [complete, hdone], hdisk⟩
  · exact ⟨by rw [hfails]; rfl, hdisk⟩

-- ---------------------------------------------------------------------------
-- Two configurations
-- ---------------------------------------------------------------------------

/-- Two runs have ended with one exit code and one tree, but for the bytes of the file `id`. -/
structure Agree (id : NodeId) (x y : Nat × Run) : Prop where
  code : y.1 = x.1
  items : ∀ q, y.2.disk.item? q = x.2.disk.item? q
  nodes : ∀ q, x.2.disk.item? q ≠ some (.leaf id) → y.2.disk.node? q = x.2.disk.node? q

theorem Agree.of_refill {x y : Nat × Run} (hcode : y.1 = x.1) (hdisk : y.2.disk = x.2.disk.refill id mode bytes) :
    Agree id x y where
  code := hcode
  items q := by rw [hdisk, Disk.item?_refill]
  nodes q hother := by rw [hdisk]; exact Disk.node?_setNode_of_ne hother _

theorem Deleted.sameAt {x : Nat × Run} {q : Place} (h : Deleted (startLog config r).session p x)
    (hitem : x.2.disk.item? q = r.disk.item? q) : r.disk.SameAt x.2.disk q := by
  have hnodes : x.2.disk.nodes = (startLog config r).disk.nodes := by
    rw [h.disk]
    exact Session.deleteTree_nodes _ p
  refine .of_item hitem fun other hleaf => ?_
  rw [Disk.node, hnodes]
  exact (within_startLog config r).node hleaf

theorem validate_noTrash (config : Config) (d : Disk) :
    (a.override { config with useTrash := true }).validate d false =
      .error (.ofText "use_trash is set but this platform has no trash facility") := rfl

/-- With a trash, a configuration is accepted or refused whether it asks for it or not. -/
theorem validate_of_trash (config : Config) (d : Disk) :
    (a.override { config with useTrash := true }).validate d true =
      (a.override { config with useTrash := false }).validate d true := by
  simp [Config.validate, override]

section
variable (ha : a.SparesTrash p) (h : a.Reads r id mode on)
  (hon : Config.parse on = .ok { config with useTrash := true })
  (hoff : Config.parse off = .ok { config with useTrash := false })
include ha h hon hoff

/-- Where the platform has a trash, two runs that spare it end alike under either configuration. -/
theorem agree_of_trash (htrash : r.trash?.isSome = true) (stdin : Bytes) :
    Agree id (complete (a.run stdin r)) (complete (a.run stdin (r.refill id mode (Text.toUtf8 off)))) := by
  have hfile := h.hasFile
  obtain ⟨source, hload⟩ := h.load hon
  obtain ⟨source', hload'⟩ := (h.refill off).load hoff
  have hsame : (a.override { config with useTrash := false }).validate (r.refill id mode (Text.toUtf8 off)).disk
        (r.refill id mode (Text.toUtf8 off)).trash?.isSome =
      (a.override { config with useTrash := true }).validate r.disk r.trash?.isSome := by
    refine (Config.validate_refill hfile _ _ _ _).trans ?_
    rw [show (r.refill id mode (Text.toUtf8 off)).trash? = r.trash? from rfl, htrash, validate_of_trash]
  cases hvalid : (a.override { config with useTrash := true }).validate r.disk r.trash?.isSome with
  | error report =>
    rw [run_refused ha hload hvalid, run_refused ha hload' (hsame.trans hvalid)]
    exact .of_refill rfl rfl
  | ok u =>
    have hx := run_deletes ha hload hvalid stdin
    have hy := run_deletes ha hload' (hsame.trans hvalid) stdin
    -- The log starts alike under both, and then the same deletion meets the same disk but for the bytes.
    have hstart : (startLog (a.override { config with useTrash := false })
          (r.refill id mode (Text.toUtf8 off))).session =
        (startLog (a.override { config with useTrash := true }) r).session.refill id mode (Text.toUtf8 off) :=
      congrArg Run.session (startLog_refill hfile)
    have hdone : (Session.refill _ id mode (Text.toUtf8 off)).deleteTree p = _ :=
      Session.deleteTree_refill (hasFile_startLog hfile (a.override { config with useTrash := true })) p
    exact .of_refill (by rw [hy.code, hx.code, hstart, hdone]) (by rw [hy.disk, hx.disk, hstart, hdone]; rfl)

/-- A configuration without the trash makes the run the deletion for good, unless it is refused for its log file. One
that asks for the trash has the run refused where the platform has none, so the two runs end alike exactly if there
is a trash to spare, or if the deletion fails and changes nothing. -/
theorem delete_noTrash_agrees_iff (stdin : Bytes) :
    let plain := r.refill id mode (Text.toUtf8 off)
    let settings := a.override { config with useTrash := false }
    let x := complete (a.run stdin r)
    let y := complete (a.run stdin plain)
    (settings.validate plain.disk plain.trash?.isSome = .ok () → Deleted (startLog settings plain).session p y) ∧
    (∀ report, settings.validate plain.disk plain.trash?.isSome = .error report →
      a.run stdin plain = (.error report, plain)) ∧
    (r.trash? = none → a.run stdin r =
      (.error (.ofText "use_trash is set but this platform has no trash facility"), r)) ∧
    (Agree id x y ↔ r.trash?.isSome ∨ y.1 = 2 ∧ ∀ q, plain.disk.SameAt y.2.disk q) := by
  intro plain settings x y
  obtain ⟨source, hload⟩ := h.load hon
  obtain ⟨source', hload'⟩ := (h.refill off).load hoff
  have hnone (hno : r.trash? = none) : a.run stdin r =
      (.error (.ofText "use_trash is set but this platform has no trash facility"), r) :=
    run_refused ha hload (by rw [hno]; exact validate_noTrash config r.disk) stdin
  have hrefused {report : Report} (hinvalid : settings.validate plain.disk plain.trash?.isSome = .error report) :=
    run_refused ha hload' hinvalid stdin
  refine ⟨fun hvalid => run_deletes ha hload' hvalid stdin, fun report => hrefused, hnone, ?_⟩
  cases htrash : r.trash? with
  | some trash =>
    exact ⟨fun _ => .inl rfl, fun _ => agree_of_trash ha h hon hoff (by rw [htrash]; rfl) stdin⟩
  | none =>
    have hx : x = complete (.error (.ofText "use_trash is set but this platform has no trash facility"), r) :=
      congrArg complete (hnone htrash)
    have hitem (q : Place) : plain.disk.item? q = r.disk.item? q := Disk.item?_refill
    rw [hx]
    refine ⟨fun hagree => .inr ⟨hagree.code, fun q => ?_⟩, fun hidle => ?_⟩
    · cases hvalid : settings.validate plain.disk plain.trash?.isSome with
      | ok u => exact (run_deletes ha hload' hvalid stdin).sameAt ((hagree.items q).trans (hitem q).symm)
      | error report =>
        rw [show y = complete (.error report, plain) from congrArg complete (hrefused hvalid)]
        exact .refl plain.disk q
    · obtain ⟨hcode, hsame⟩ := hidle.resolve_left Bool.false_ne_true
      exact { code := hcode
              items := fun q => (hsame q).1.trans (hitem q)
              nodes := fun q hother => (hsame q).2.trans (Disk.node?_setNode_of_ne hother _) }

end

def trashOn : Text := "<config><use_trash>true</use_trash></config>".toList

def trashOff : Text := "<config><use_trash>false</use_trash></config>".toList

def configured (t : Text) : Session where
  world := { disk := {
    items := [([['c']], .leaf 0), ([['f']], .leaf 1)]
    nodes := [(0, .file newFileMode (Text.toUtf8 t)), (1, .file newFileMode [120])]
    cwd := [] } }

def sparing : Arguments := { config := some ['c'], command := some (.delete ['f'] false true) }

example : parse ["delete".toList, "--no-trash".toList, "f".toList, "--config".toList, "c".toList] = .ok sparing := by
  decide +kernel

def besideTrash : Run := { session := configured trashOn, trash? := some .lazy }

theorem delete_noTrash_besideTrash : sparing.SparesTrash ['f'] ∧ sparing.Reads besideTrash 0 newFileMode trashOn ∧
    Config.parse trashOn = .ok { Config.standard with useTrash := true } ∧
    Config.parse trashOff = .ok { Config.standard with useTrash := false } ∧
    (besideTrash.refill 0 newFileMode (Text.toUtf8 trashOff)).session = configured trashOff ∧
    Agree 0 (complete (sparing.run [] besideTrash))
      (complete (sparing.run [] (besideTrash.refill 0 newFileMode (Text.toUtf8 trashOff)))) ∧
    (complete (sparing.run [] besideTrash)).1 = 0 ∧
    (complete (sparing.run [] besideTrash)).2.disk.item? [['f']] = none := by
  have ha : sparing.SparesTrash ['f'] := ⟨rfl, rfl, rfl⟩
  have h : sparing.Reads besideTrash 0 newFileMode trashOn :=
    { leads := ⟨['c'], [['c']], rfl, by decide +kernel, rfl⟩, holds := rfl }
  have hon : Config.parse trashOn = .ok { Config.standard with useTrash := true } := by decide +kernel
  have hoff : Config.parse trashOff = .ok { Config.standard with useTrash := false } := by decide +kernel
  obtain ⟨-, -, -, hagree⟩ := delete_noTrash_agrees_iff ha h hon hoff []
  exact ⟨ha, h, hon, hoff, rfl, hagree.mpr (.inl rfl), by decide +kernel, by decide +kernel⟩

/-- Where the platform has no trash, the configuration decides and the switch does not count: the file stays under
one configuration and goes under the other. -/
theorem delete_noTrash_overruled : Trash.ofPlatform? = none ∧ sparing.SparesTrash ['f'] ∧
    (finish sparing [] (configured trashOn)).1 = 2 ∧
    (finish sparing [] (configured trashOn)).2.disk.item? [['f']] = some (.leaf 1) ∧
    (finish sparing [] (configured trashOff)).1 = 0 ∧
    (finish sparing [] (configured trashOff)).2.disk.item? [['f']] = none :=
  ⟨rfl, ⟨rfl, rfl, rfl⟩, by decide +kernel, by decide +kernel, by decide +kernel, by decide +kernel⟩

end Arguments

end SafeFiles
