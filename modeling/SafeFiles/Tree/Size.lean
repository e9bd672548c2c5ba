import SafeFiles.Disk.Calls

/-!
# The size of a tree

The summed length of the files below a folder. Links are followed, but a link
back to one of the folders it was reached through is left out. What cannot be
read counts nothing.
-/

namespace SafeFiles

namespace Disk

/-- The length of the files in a folder. `above` holds the places of the folder and of those it was entered
through. -/
def sizeWithin (d : Disk) : Nat → List Place → Path → Nat
  | 0, _, _ => 0
  | depth + 1, above, folder =>
    match d.list folder with
    | .error _ => 0
    | .ok (home, names) =>
      (names.map fun name =>
        let p := folder.join name
        match d.stat p with
        | .error _ => 0
        | .ok place =>
          if d.isFolderAt place then
            -- Only a link can lead back to a folder that it was reached through.
            if d.isLinkAt (home ++ [name]) && above.contains place then 0
            else sizeWithin d depth (place :: above) p
          else if (d.node? place).any Node.isFile then d.sizeAt place
          else 0).foldr (· + ·) 0

/-- The length of a file, or of all files below a folder. Every level makes paths longer, so their length
bounds the levels. -/
def totalSize (d : Disk) (root : Path) : Nat :=
  match d.stat root with
  | .error _ => 0
  | .ok place => if d.isFolderAt place then d.sizeWithin pathLimit [place] root else d.sizeAt place

end Disk

end SafeFiles
