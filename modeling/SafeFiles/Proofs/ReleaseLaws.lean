import SafeFiles.Proofs.MoverLaws

/-!
# The order of requests in a forced move

The history of a forced move is the first rename, then one turn for each locker
that is asked, then what the copy does. A turn is a question, and if the locker
lets go, one more rename. Who gets a turn is settled by the registry as the first
rename left it and by the outcomes of the turns, whatever else lockers change.
-/

namespace SafeFiles

/-- What one locker was asked. If it let go, the rename was tried again: `retry` is how that went. -/
structure Turn where
  id : LockerId
  retry : Option Bool

namespace Turn

def Frees (t : Turn) : Prop := t.retry = some true

def events (src dst : Path) (t : Turn) : List Event :=
  match t.retry with
  | none => [.asked t.id src false]
  | some done => [.asked t.id src true, .renamed src dst done]

end Turn

/-- The turns as the lockers take them from one session to another. Each gives its answer in the session in which it
is asked, and a retry goes as the rename goes in the session that the answer leaves. -/
inductive Mover.Takes (m : Mover) (src dst : Path) : Session → List Turn → Session → Prop
  | nil {s : Session} : Takes m src dst s [] s
  | kept {s after : Session} {id : LockerId} {turns : List Turn} : (m.lockers id src s).1 = false →
      Takes m src dst (s.ask m.lockers id src).2 turns after → Takes m src dst s (⟨id, none⟩ :: turns) after
  | retried {s after : Session} {id : LockerId} {turns : List Turn} : (m.lockers id src s).1 = true →
      Takes m src dst (m.rename (s.ask m.lockers id src).2 src dst).2 turns after →
      Takes m src dst s (⟨id, some (m.rename (s.ask m.lockers id src).2 src dst).1⟩ :: turns) after

/-- The event is no question to a locker and no attempt to rename `src`. -/
def Event.ApartFrom (src : Path) : Event → Prop
  | .asked _ _ _ => False
  | .renamed other _ _ => other ≠ src
  | .handedOver _ | .logged _ => True

/-- The turns that lockers get: in order, and up to the first one that frees the path. -/
structure InTurn (ids : List LockerId) (turns : List Turn) (freed : Bool) : Prop where
  inOrder : turns.map Turn.id <+: ids
  early : ∀ t ∈ turns.dropLast, ¬ t.Frees
  last : freed = true → ∃ t ∈ turns.getLast?, t.Frees
  all : freed = false → turns.map Turn.id = ids ∧ ∀ t ∈ turns, ¬ t.Frees

namespace InTurn

variable {ids : List LockerId} {turns : List Turn} {freed : Bool} {t : Turn}

theorem nil : InTurn [] [] false :=
  ⟨List.prefix_rfl, by simp, by simp, by simp⟩

theorem freed_by (ht : t.Frees) : InTurn (t.id :: ids) [t] true :=
  ⟨by simp, by simp, fun _ => ⟨t, by simp, ht⟩, by simp⟩

theorem cons (h : InTurn ids turns freed) (ht : ¬ t.Frees) :
    InTurn (t.id :: ids) (t :: turns) freed where
  inOrder := by simpa using h.inOrder
  early := by
    intro u hu
    cases turns with
    | nil => simp at hu
    | cons first rest =>
      rcases List.mem_cons.mp hu with rfl | hu
      · exact ht
      · exact h.early u hu
  last := by
    intro hfreed
    obtain ⟨u, hu, hfrees⟩ := h.last hfreed
    refine ⟨u, ?_, hfrees⟩
    cases turns with
    | nil => simp at hu
    | cons first rest => simpa using hu
  all := by
    intro hkept
    obtain ⟨hids, hnone⟩ := h.all hkept
    refine ⟨by simp [hids], ?_⟩
    rintro u (_ | ⟨_, hu⟩)
    · exact ht
    · exact hnone u hu

end InTurn

namespace Disk

variable {d d' : Disk} {p src : Path} {place : Place} {bytes : Bytes}

theorem stat_ne_of_free {folder : Place} {n : Name} (h : d.folderOf p = .ok (folder, .name n false))
    (hfree : d.item? (folder ++ [n]) = none) (q : Place) : d.stat p ≠ .ok q := by
  intro hstat
  obtain ⟨before, hsteps, hbefore, -⟩ := folderOf_name h
  obtain ⟨-, hroute, -⟩ := seek_ok.mp hstat
  rw [hsteps] at hroute
  obtain ⟨mid, fewer, -, hmid, hlast, -⟩ := hroute.split (by simp)
  obtain rfl := hmid.unique hbefore
  cases hlast with
  | folder _ _ hi _ | link _ _ hi _ _ _ | leaf _ hi _ => simp [hfree] at hi

theorem Scratch.ne_of_isFile (h : Scratch d p place bytes d') (hsrc : d.isFile src) : p ≠ src := by
  rintro rfl
  obtain ⟨source, -, hstat, -⟩ := leaf_of_isFile hsrc
  obtain ⟨folder, n, hf, -, rfl⟩ := h.named
  exact stat_ne_of_free hf h.free source hstat

end Disk

namespace Mover

variable {m : Mover} {s : Session} {src dst : Path}

theorem exists_record (s : Session) (severity : Severity) (message : String)
    (fields : List (String × FieldValue)) :
    ∃ record, (s.log severity message fields).history = s.history ++ [.logged record] :=
  ⟨_, rfl⟩

theorem history_ask {id : LockerId} {answer : Bool} {asked : Session}
    (h : s.ask m.lockers id src = (answer, asked)) :
    asked.history = s.history ++ [.asked id src answer] := by
  cases h
  rfl

theorem answer_eq_of_ask {id : LockerId} {answer : Bool} {asked : Session}
    (h : s.ask m.lockers id src = (answer, asked)) : (m.lockers id src s).1 = answer := by
  cases h
  rfl

theorem history_rename {done : Bool} {tried : Session} (h : m.rename s src dst = (done, tried)) :
    tried.history = s.history ++ [.renamed src dst done] := by
  unfold rename at h
  split at h <;> cases h <;> rfl

-- ---------------------------------------------------------------------------
-- The turns
-- ---------------------------------------------------------------------------

theorem askEach_inTurn {ids : List LockerId} {freed : Bool} {after : Session}
    (h : m.askEach src dst ids s = (freed, after)) :
    ∃ turns tail, after.history = s.history ++ (turns.flatMap (Turn.events src dst) ++ tail) ∧
      InTurn ids turns freed ∧ (∃ last, m.Takes src dst s turns last) ∧ ∀ e ∈ tail, Event.ApartFrom src e := by
  induction ids generalizing s with
  | nil =>
    cases h
    exact ⟨[], [], by simp, .nil, ⟨_, .nil⟩, by simp⟩
  | cons id others ih =>
    rw [askEach] at h
    rcases hasked : s.ask m.lockers id src with ⟨_ | _, asked⟩
    · rw [hasked] at h
      obtain ⟨turns, tail, hhistory, hturns, ⟨last, htakes⟩, htail⟩ := ih h
      have hkept : ¬ Turn.Frees ⟨id, none⟩ := by simp [Turn.Frees]
      have htaken : m.Takes src dst s (⟨id, none⟩ :: turns) last :=
        .kept (answer_eq_of_ask hasked) (by rwa [hasked])
      refine ⟨⟨id, none⟩ :: turns, tail, ?_, hturns.cons hkept, ⟨last, htaken⟩, htail⟩
      simp [hhistory, history_ask hasked, Turn.events]
    · have hretried {turns : List Turn} {last : Session}
          (htakes : m.Takes src dst (m.rename asked src dst).2 turns last) :
          m.Takes src dst s (⟨id, some (m.rename asked src dst).1⟩ :: turns) last := by
        have hleft : (s.ask m.lockers id src).2 = asked := by rw [hasked]
        rw [← hleft] at htakes ⊢
        exact .retried (answer_eq_of_ask hasked) htakes
      rw [hasked] at h
      simp only at h
      rcases htried : m.rename asked src dst with ⟨_ | _, tried⟩ <;> rw [htried] at hretried
      · rw [htried] at h
        obtain ⟨turns, tail, hhistory, hturns, ⟨last, htakes⟩, htail⟩ := ih h
        have hkept : ¬ Turn.Frees ⟨id, some false⟩ := by simp [Turn.Frees]
        refine ⟨⟨id, some false⟩ :: turns, tail, ?_, hturns.cons hkept, ⟨last, hretried htakes⟩, htail⟩
        simp [hhistory, history_rename htried, history_ask hasked, Turn.events]
      · rw [htried] at h
        cases h
        obtain ⟨record, hlog⟩ := exists_record tried .info "renamed after lock release"
          [Record.text "src" src, Record.text "dst" dst]
        refine ⟨[⟨id, some true⟩], [.logged record], ?_, .freed_by (t := ⟨id, some true⟩) rfl, ⟨tried, hretried .nil⟩,
          by simp [Event.ApartFrom]⟩
        simp [hlog, history_rename htried, history_ask hasked, Turn.events]

-- ---------------------------------------------------------------------------
-- The copy
-- ---------------------------------------------------------------------------

/-- What is noted from one session to the next is apart from `src`. -/
def NotesApart (src : Path) (s after : Session) : Prop :=
  ∃ notes, after.history = s.history ++ notes ∧ ∀ e ∈ notes, Event.ApartFrom src e

theorem NotesApart.of_history {after : Session} (h : after.history = s.history) :
    NotesApart src s after :=
  ⟨[], by simp [h], by simp⟩

theorem NotesApart.log {after : Session} (h : NotesApart src s after) (severity : Severity)
    (message : String) (fields : List (String × FieldValue)) :
    NotesApart src s (after.log severity message fields) := by
  obtain ⟨notes, hhistory, hnotes⟩ := h
  obtain ⟨record, hlog⟩ := exists_record after severity message fields
  refine ⟨notes ++ [.logged record], by simp [hlog, hhistory], ?_⟩
  intro e he
  rcases List.mem_append.mp he with he | he
  · exact hnotes e he
  · cases List.mem_singleton.mp he
    trivial

theorem removeSource_apart {after : Session} (h : NotesApart src s after) (p : Path) :
    NotesApart src s (removeSource after p) := by
  unfold removeSource
  split
  · exact h
  · exact h.log _ _ _

theorem rename_apart {temp : Path} (htemp : temp ≠ src) :
    NotesApart src s (m.rename s temp dst).2 :=
  ⟨_, history_rename rfl, by simpa [Event.ApartFrom] using htemp⟩

theorem copyThenRemove_apart (m : Mover) (s : Session) (src dst : Path) :
    NotesApart src s (m.copyThenRemove s src dst).2 := by
  unfold copyThenRemove
  cases hsrc : s.disk.isFile src with
  | false => exact .of_history rfl
  | true =>
    simp only [Bool.not_true, Bool.false_eq_true, if_false]
    cases hreserve : Temp.reserve s.disk dst.folderPart (stem dst) with
    | error f => exact .of_history rfl
    | ok made =>
      obtain ⟨temp, reserved⟩ := made
      obtain ⟨-, place, hscratch⟩ := Temp.reserve_ok hreserve
      have htemp : temp ≠ src := hscratch.ne_of_isFile hsrc
      simp only
      rcases reserved.copyFile src temp m.durability with ⟨_ | _, copied⟩
      · exact .of_history rfl
      · have hnotes : NotesApart src s (m.rename (s.withDisk copied) temp dst).2 :=
          rename_apart htemp
        simp only
        rcases h : m.rename (s.withDisk copied) temp dst with ⟨_ | _, after⟩
        · rw [h] at hnotes
          exact hnotes
        · rw [h] at hnotes
          exact (removeSource_apart hnotes src).log _ _ _

-- ---------------------------------------------------------------------------
-- The whole move
-- ---------------------------------------------------------------------------

theorem move_of_freed {tried freed : Session} (h : m.rename s src dst = (false, tried))
    (hasked : m.askEach src dst tried.world.registry.ids tried = (true, freed)) :
    m.move s src dst = (true, freed) := by
  simp only [move, h, hasked]

theorem move_of_kept {tried asked : Session} (h : m.rename s src dst = (false, tried))
    (hasked : m.askEach src dst tried.world.registry.ids tried = (false, asked)) :
    NotesApart src asked (m.move s src dst).2 := by
  have hnotes := copyThenRemove_apart m asked src dst
  simp only [move, h, hasked]
  rcases hcopied : m.copyThenRemove asked src dst with ⟨_ | _, after⟩
  · rw [hcopied] at hnotes
    exact hnotes.log _ _ _
  · rw [hcopied] at hnotes
    exact hnotes

/-- Whatever lockers answer and change, and however the renames go: the lockers that are asked are the first
ones of the registry as the first rename left it, each once and for `src`, up to the first that frees it. -/
theorem move_asks_in_turn (m : Mover) (s : Session) (src dst : Path) : ∃ turns tail,
    (m.move s src dst).2.history = s.history ++ .renamed src dst (m.rename s src dst).1 ::
      (turns.flatMap (Turn.events src dst) ++ tail) ∧
    (∃ last, m.Takes src dst (m.rename s src dst).2 turns last) ∧
    (∀ e ∈ tail, Event.ApartFrom src e) ∧
    (turns.map Turn.id).Nodup ∧
    ((m.rename s src dst).1 = true → turns = []) ∧
    ((m.rename s src dst).1 = false → ∃ freed,
      InTurn (m.rename s src dst).2.world.registry.ids turns freed ∧
      (freed = true → (m.move s src dst).1 = true)) := by
  rcases h : m.rename s src dst with ⟨_ | _, tried⟩
  · have hfirst := history_rename h
    rcases hasked : m.askEach src dst tried.world.registry.ids tried with ⟨freed, asked⟩
    obtain ⟨turns, tail, hhistory, hturns, htakes, htail⟩ := askEach_inTurn hasked
    have hnodup : (turns.map Turn.id).Nodup :=
      tried.world.registry.distinct.sublist hturns.inOrder.sublist
    cases freed with
    | true =>
      rw [move_of_freed h hasked]
      refine ⟨turns, tail, ?_, htakes, htail, hnodup, by simp, fun _ => ⟨true, hturns, fun _ => rfl⟩⟩
      simp [hhistory, hfirst]
    | false =>
      obtain ⟨notes, hnotes, hapart⟩ := move_of_kept h hasked
      refine ⟨turns, tail ++ notes, ?_, htakes, ?_, hnodup, by simp, fun _ => ⟨false, hturns, by simp⟩⟩
      · simp [hnotes, hhistory, hfirst]
      · intro e he
        rcases List.mem_append.mp he with he | he
        · exact htail e he
        · exact hapart e he
  · have hmove : m.move s src dst = (true, tried) := by simp only [move, h]
    rw [hmove]
    exact ⟨[], [], by simpa using history_rename h, ⟨tried, .nil⟩, by simp, by simp, fun _ => rfl, by simp⟩

end Mover

end SafeFiles
