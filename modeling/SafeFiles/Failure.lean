import SafeFiles.Fault.Basic
import SafeFiles.Path.Basic

/-!
# Failures

The failures a caller must act on. Each has a stable code, which is also the exit
code of the command line, and a short kind for the log.
-/

namespace SafeFiles

inductive Failure where
  | pathResolution (path : Path) (fault : Fault)
  | trashUnsupported
  | unknownSpecialFolder (tag : Text)
  | specialFolderUnavailable (tag : Text)
  | cancelled
  | interrupted
  deriving DecidableEq, Repr

namespace Failure

def code : Failure → Nat
  | .pathResolution _ _ => 10
  | .trashUnsupported => 20
  | .unknownSpecialFolder _ => 30
  | .specialFolderUnavailable _ => 31
  | .cancelled => 40
  | .interrupted => 41

def kind : Failure → String
  | .pathResolution _ _ => "path_resolution"
  | .trashUnsupported => "trash_unsupported"
  | .unknownSpecialFolder _ => "unknown_special_folder"
  | .specialFolderUnavailable _ => "special_folder_unavailable"
  | .cancelled => "cancelled"
  | .interrupted => "interrupted"

def message : Failure → String
  | .pathResolution path fault => s!"Cannot resolve canonical path for {shown path}: {fault.text}"
  | .trashUnsupported => "Moving to the trash is not supported on this platform"
  | .unknownSpecialFolder tag => s!"Unknown special folder tag: {shown tag}"
  | .specialFolderUnavailable tag => s!"Special folder '{shown tag}' is not available on this system"
  | .cancelled => "Background job was cancelled before it started"
  | .interrupted => "Background job was interrupted before it finished"

end Failure

end SafeFiles
