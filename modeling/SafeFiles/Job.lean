import SafeFiles.Tree.Copy
import SafeFiles.Tree.Delete
import SafeFiles.Tree.Size

/-!
# Background jobs

A job is queued, runs its operation once, tells its listener how that ended, and
is finished. It can be cancelled until the operation starts. The worker's steps
and the calls of those who hold the job may come in any order.
-/

namespace SafeFiles

/-- How an operation ends. -/
inductive Ending (α : Type) where
  | value (a : α)
  | error (r : Report)
  | panic

/-- What a listener is told. -/
inductive Outcome (α : Type) where
  | success (a : α)
  | failure (r : Report)
  | cancelled
  | interrupted

/-- The typed failures for cancellation and interruption count below any contexts. -/
def Ending.outcome {α : Type} : Ending α → Outcome α
  | .value a => .success a
  | .error r =>
    match r.failure? with
    | some .cancelled => .cancelled
    | some .interrupted => .interrupted
    | _ => .failure r
  | .panic => .interrupted

/-- Who has the job: nobody yet, the worker, or a caller who cancelled it. -/
inductive Claim where
  | pending
  | running
  | cancelled
  deriving DecidableEq, Repr

/-- How far the worker is. -/
inductive Stage (α : Type) where
  | queued
  /-- The job was cancelled before the worker came to it. -/
  | refused
  | started
  /-- The operation is over, and nobody has been told yet. -/
  | ended (ending : Ending α)
  | told
  | finished

/-- A job whose operation acts on a state `σ` and gives an `α`. -/
structure Job (σ α : Type) where
  operation : σ → Ending α × σ
  state : σ
  claim : Claim := .pending
  stage : Stage α := .queued
  /-- What the listener was told, oldest first. -/
  heard : List (Outcome α) := []

inductive JobStep where
  /-- The worker goes on. -/
  | work
  | cancel
  /-- Somebody asks whether the job is finished. -/
  | poll
  deriving DecidableEq, Repr

namespace Job

variable {σ α : Type}

/-- A job as it is handed to the worker. -/
def spawn (operation : σ → Ending α × σ) (state : σ) : Job σ α := { operation, state }

def isFinished (j : Job σ α) : Bool :=
  match j.stage with
  | .finished => true
  | _ => false

/-- True if this call cancelled the job. -/
def cancel (j : Job σ α) : Bool × Job σ α :=
  if j.claim = .pending then (true, { j with claim := .cancelled }) else (false, j)

def tell (j : Job σ α) (outcome : Outcome α) : Job σ α :=
  { j with heard := j.heard ++ [outcome], stage := .told }

/-- The worker's next step. Between any two of them others may act on the job. -/
def work (j : Job σ α) : Job σ α :=
  match j.stage with
  | .queued =>
    if j.claim = .pending then { j with claim := .running, stage := .started }
    else { j with stage := .refused }
  | .refused => j.tell .cancelled
  | .started =>
    let (ending, state) := j.operation j.state
    { j with state := state, stage := .ended ending }
  | .ended ending => j.tell ending.outcome
  | .told => { j with stage := .finished }
  | .finished => j

/-- One step, with the answer of the call if it is one. -/
def step (j : Job σ α) : JobStep → Option Bool × Job σ α
  | .work => (none, j.work)
  | .cancel =>
    let (done, j) := j.cancel
    (some done, j)
  | .poll => (some j.isFinished, j)

/-- Take steps in order; the answers come with the steps that gave them. -/
def run (j : Job σ α) : List JobStep → List (JobStep × Option Bool) × Job σ α
  | [] => ([], j)
  | s :: steps =>
    let (answer, j) := j.step s
    let (answers, j) := run j steps
    ((s, answer) :: answers, j)

/-- Let the worker go on to the end. -/
def wait (j : Job σ α) : Job σ α := j.work.work.work.work

end Job

namespace Session

def copyTreeJob (s : Session) (src dst : Path) : Job Session Unit :=
  .spawn (fun s =>
    match s.copyTree src dst with
    | (.ok (), s) => (.value (), s)
    | (.error r, s) => (.error r, s)) s

def deleteTreeJob (s : Session) (p : Path) : Job Session Bool :=
  .spawn (fun s =>
    let (done, s) := s.deleteTree p
    (.value done, s)) s

def totalSizeJob (s : Session) (p : Path) : Job Session Nat :=
  .spawn (fun s => (.value (s.disk.totalSize p), s)) s

end Session

end SafeFiles
