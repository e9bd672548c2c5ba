import SafeFiles.Report
import SafeFiles.Save
import SafeFiles.Settings.Format

/-!
# Settings files

Settings are stored by a verified save, so a reader sees the old file or the new
one. A file that is missing reads as no settings.
-/

namespace SafeFiles

namespace Settings

def load (d : Disk) (p : Path) : Except Report Settings :=
  match d.readText p with
  | .ok text => .ok (parse text)
  | .error f => if f.isNotFound then .ok empty else .error (.explained "read settings" p f)

def store (settings : Settings) (m : Mover) (p : Path) (s : Session) : Except Report Unit × Session :=
  match p.fileName? with
  | none => (.error (.ofText s!"settings path '{shown p}' has no usable file name"), s)
  | some name =>
    match Save.run ⟨p.folderPart, name, Text.toUtf8 settings.render⟩ m s with
    | (true, s) => (.ok (), s)
    | (false, s) => (.error (.ofText s!"could not save settings to '{shown p}'"), s)

end Settings

end SafeFiles
