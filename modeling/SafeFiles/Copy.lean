import SafeFiles.Disk.Content

/-!
# Copying a file

A copy hands over to the kernel first and reads and writes what is left itself.
Both move bytes from the front of what is unread to the end of what is written, so
it does not matter how they split the work. A copy never fails: it reports how
many bytes it moved, and a short count is the caller's business.
-/

namespace SafeFiles

/-- How one request to the kernel ends. -/
inductive KernelTurn where
  /-- At most this many bytes are moved; none means that the kernel is done. -/
  | moved (count : Nat)
  | interrupted
  /-- The kernel cannot go on, or cannot copy between these files at all. -/
  | stopped
  deriving DecidableEq, Repr

/-- How one read ends. A read that is not interrupted gives at least one byte if there is one. -/
inductive ReadTurn where
  | upTo (count : Nat)
  | interrupted
  deriving DecidableEq, Repr

/-- How the turns of a copy come out. Once a list is used up, everything goes at once. -/
structure Turns where
  kernel : List KernelTurn := []
  reads : List ReadTurn := []
  deriving DecidableEq, Repr

/-- A copy under way. -/
structure Transfer where
  unread : Bytes
  written : Bytes
  /-- How many bytes are still asked for. -/
  wanted : Nat
  deriving DecidableEq, Repr

namespace Transfer

/-- Longest read. -/
def readLimit : Nat := 65536

def advance (t : Transfer) (n : Nat) : Transfer :=
  let n := min n (min t.wanted t.unread.length)
  ⟨t.unread.drop n, t.written ++ t.unread.take n, t.wanted - n⟩

def kernel : List KernelTurn → Transfer → Transfer
  | [], t => t.advance t.wanted
  | .stopped :: _, t => t
  | .interrupted :: turns, t => kernel turns t
  -- Done as far as the kernel is concerned; what is left is read and written.
  | .moved 0 :: _, t => t
  | .moved (n + 1) :: turns, t => kernel turns (t.advance (n + 1))

def reads : List ReadTurn → Transfer → Transfer
  | [], t => t.advance t.wanted
  | .interrupted :: turns, t => reads turns t
  | .upTo n :: turns, t => reads turns (t.advance (min (max n 1) readLimit))

/-- All bytes that the turns move. -/
def run (turns : Turns) (t : Transfer) : Bytes :=
  (reads turns.reads (kernel turns.kernel t)).written

end Transfer

namespace Disk

/-- A regular file behind an opened place: only between such files the kernel copies. -/
def isFileAt (d : Disk) (place : Place) : Bool :=
  (d.node? place).any Node.isFile

/-- The bytes that come out of an opened source. -/
def transferred (d : Disk) (turns : Turns) (src dst : Place) (amount : Nat) : Bytes :=
  let turns := if d.isFileAt src && d.isFileAt dst then turns else { turns with kernel := [.stopped] }
  match d.sourceAt src with
  | .data bytes => Transfer.run turns ⟨bytes, [], amount⟩
  | .zeros => (Source.zeros).take amount
  | .refused _ => []

/-- Copy the first `amount` bytes of `src` over `dst`, which is made or emptied first. The answer is the
number of bytes that arrived. -/
def copyPrefix (d : Disk) (src : Path) (amount : Nat) (dst : Path) (durability : Durability)
    (turns : Turns := {}) : Nat × Disk :=
  match d.stat src with
  | .error _ => (0, d)
  | .ok source =>
    match d.openWrite dst { truncate := true } with
    | .error _ => (0, d)
    | .ok (target, opened) =>
      -- The target is empty by now, so a copy onto itself finds nothing to read.
      let bytes := opened.transferred turns source target amount
      match opened.append target bytes with
      | .error _ => (0, opened)
      | .ok after => (bytes.length, after.flush durability)

/-- True if as many bytes arrive as the source's length says. -/
def copyFile (d : Disk) (src dst : Path) (durability : Durability) (turns : Turns := {}) :
    Bool × Disk :=
  match d.size src with
  | .error _ => (false, d)
  | .ok size =>
    let (copied, after) := d.copyPrefix src size dst durability turns
    (copied = size, after)

end Disk

end SafeFiles
