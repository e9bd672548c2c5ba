import Mathlib.Data.List.Induction
import SafeFiles.World.Registry

/-!
# Runs of the registry

What a registry holds follows from the calls that changed it: a locker stands in it
if the last such call with its id was an `add`, and the lockers stand in the order
of those calls. A run keeps the answer to every call, a snapshot's too, and later
calls add to the answers without touching those that were given.
-/

namespace SafeFiles

namespace Registry

inductive Call where
  | add (id : LockerId)
  | remove (id : LockerId)
  | snapshot
  deriving DecidableEq, Repr

inductive Answer where
  | changed (done : Bool)
  | ids (ids : List LockerId)
  deriving DecidableEq, Repr

def call (r : Registry) : Call → Answer × Registry
  | .add id => (.changed (r.add id).1, (r.add id).2)
  | .remove id => (.changed (r.remove id).1, (r.remove id).2)
  | .snapshot => (.ids r.ids, r)

def run (r : Registry) : List Call → List (Call × Answer) × Registry
  | [] => ([], r)
  | c :: calls => ((c, (r.call c).1) :: ((r.call c).2.run calls).1, ((r.call c).2.run calls).2)

def Call.id? : Call → Option LockerId
  | .add id | .remove id => some id
  | .snapshot => none

/-- The last call that changed what the registry says of `id`, and how many calls came before it. -/
def lastChange? (log : List (Call × Answer)) (id : LockerId) : Option (Call × Nat) :=
  (log.zipIdx.filterMap fun ((c, a), i) =>
    if c.id? = some id ∧ a = .changed true then some (c, i) else none).getLast?

inductive Answers (r : Registry) : Call → Answer → Prop
  | add (id : LockerId) : Answers r (.add id) (.changed (id ∉ r.ids))
  | remove (id : LockerId) : Answers r (.remove id) (.changed (id ∈ r.ids))
  | snapshot : Answers r .snapshot (.ids r.ids)

/-- The registry holds the lockers that were added last, in the order in which that was. -/
structure Reflects (r : Registry) (log : List (Call × Answer)) : Prop where
  mem : ∀ id, id ∈ r.ids ↔ ∃ i, lastChange? log id = some (.add id, i)
  order : r.ids.Pairwise fun a b => ∃ i j, lastChange? log a = some (.add a, i) ∧
    lastChange? log b = some (.add b, j) ∧ i < j

variable {r : Registry} {id : LockerId} {c : Call} {a : Answer} {calls : List Call} {log : List (Call × Answer)}

-- ---------------------------------------------------------------------------
-- One call
-- ---------------------------------------------------------------------------

theorem add_of_mem (h : id ∈ r.ids) : r.add id = (false, r) := by
  unfold add
  rw [dif_pos (List.contains_iff_mem.mpr h)]

theorem add_of_not_mem (h : id ∉ r.ids) : (r.add id).1 = true ∧ (r.add id).2.ids = r.ids ++ [id] := by
  unfold add
  rw [dif_neg (by simpa using h)]
  exact ⟨rfl, rfl⟩

theorem answers_call (r : Registry) (c : Call) : r.Answers c (r.call c).1 := by
  cases c with
  | add id =>
    have hanswer : (r.add id).1 = decide (id ∉ r.ids) := by
      by_cases h : id ∈ r.ids
      · simp [add_of_mem h, h]
      · simp [add_of_not_mem h, h]
    rw [call, hanswer]
    exact .add id
  | remove id =>
    have hanswer : (r.remove id).1 = decide (id ∈ r.ids) := by simp [Registry.remove]
    rw [call, hanswer]
    exact .remove id
  | snapshot => exact .snapshot

theorem call_unchanged (h : (r.call c).1 ≠ .changed true) : (r.call c).2 = r := by
  cases c with
  | add id =>
    have hid : id ∈ r.ids := by
      by_contra hid
      exact h (congrArg Answer.changed (add_of_not_mem hid).1)
    rw [call, add_of_mem hid]
  | remove id =>
    have hid : id ∉ r.ids := by simpa [call, Registry.remove] using h
    simp [call, Registry.remove, List.erase_of_not_mem hid]
  | snapshot => rfl

-- ---------------------------------------------------------------------------
-- The last change
-- ---------------------------------------------------------------------------

theorem lastChange?_concat (log : List (Call × Answer)) (c : Call) (a : Answer) (id : LockerId) :
    lastChange? (log ++ [(c, a)]) id =
      if c.id? = some id ∧ a = .changed true then some (c, log.length) else lastChange? log id := by
  rw [lastChange?, List.zipIdx_append, List.filterMap_append]
  split <;> simp_all [lastChange?]

theorem lastChange?_of_other (h : c.id? ≠ some id) : lastChange? (log ++ [(c, a)]) id = lastChange? log id := by
  simp [lastChange?_concat, h]

theorem lt_length_of_lastChange? {i : Nat} (h : lastChange? log id = some (c, i)) : i < log.length := by
  obtain ⟨⟨⟨c', a⟩, j⟩, hmem, hentry⟩ := List.mem_filterMap.mp (List.mem_of_getLast? h)
  have hj := List.mem_zipIdx hmem
  simp only [Option.ite_none_right_eq_some, Option.some.injEq, Prod.mk.injEq] at hentry
  omega

namespace Reflects

theorem unchanged (h : r.Reflects log) (ha : a ≠ .changed true) : r.Reflects (log ++ [(c, a)]) := by
  have hsame (m : LockerId) : lastChange? (log ++ [(c, a)]) m = lastChange? log m := by
    simp [lastChange?_concat, ha]
  refine ⟨fun m => ?_, ?_⟩
  · rw [hsame, h.mem]
  · simpa only [hsame] using h.order

theorem add (h : r.Reflects log) (hid : id ∉ r.ids) :
    (r.add id).2.Reflects (log ++ [(.add id, .changed true)]) := by
  have hself : lastChange? (log ++ [(.add id, .changed true)]) id = some (.add id, log.length) := by
    simp [lastChange?_concat, Call.id?]
  have hother {m : LockerId} (hm : m ≠ id) :
      lastChange? (log ++ [(.add id, .changed true)]) m = lastChange? log m :=
    lastChange?_of_other fun heq => hm (Option.some.inj heq).symm
  refine ⟨fun m => ?_, ?_⟩
  · rw [mem_ids_add]
    by_cases hm : m = id
    · subst hm
      simp [hself]
    · simp [hother hm, hm, h.mem]
  · rw [(add_of_not_mem hid).2, List.pairwise_append]
    refine ⟨h.order.imp_of_mem fun {x y} hx hy hxy => ?_, List.pairwise_singleton _ _, fun x hx y hy => ?_⟩
    · rwa [hother (fun he => hid (he ▸ hx)), hother (fun he => hid (he ▸ hy))]
    · obtain rfl := List.mem_singleton.mp hy
      obtain ⟨i, hi⟩ := (h.mem x).mp hx
      rw [hother (fun he => hid (he ▸ hx))]
      exact ⟨i, log.length, hi, hself, lt_length_of_lastChange? hi⟩

theorem remove (h : r.Reflects log) (id : LockerId) :
    (r.remove id).2.Reflects (log ++ [(.remove id, .changed true)]) := by
  have hself : lastChange? (log ++ [(.remove id, .changed true)]) id = some (.remove id, log.length) := by
    simp [lastChange?_concat, Call.id?]
  have hother {m : LockerId} (hm : m ≠ id) :
      lastChange? (log ++ [(.remove id, .changed true)]) m = lastChange? log m :=
    lastChange?_of_other fun heq => hm (Option.some.inj heq).symm
  refine ⟨fun m => ?_, ?_⟩
  · rw [mem_ids_remove]
    by_cases hm : m = id
    · subst hm
      simp [hself]
    · simp [hother hm, hm, h.mem]
  · refine (h.order.sublist List.erase_sublist).imp_of_mem fun {x y} hx hy hxy => ?_
    rwa [hother ((mem_ids_remove r id x).mp hx).1, hother ((mem_ids_remove r id y).mp hy).1]

/-- One call keeps the registry what its calls make of it. -/
theorem call (h : r.Reflects log) (c : Call) : (r.call c).2.Reflects (log ++ [(c, (r.call c).1)]) := by
  by_cases hdone : (r.call c).1 = .changed true
  · rw [hdone]
    cases c with
    | add id =>
      have hid : id ∉ r.ids := fun hid => by
        rw [Registry.call, add_of_mem hid] at hdone
        cases hdone
      exact h.add hid
    | remove id => exact h.remove id
    | snapshot => cases hdone
  · rw [call_unchanged hdone]
    exact h.unchanged hdone

end Reflects

-- ---------------------------------------------------------------------------
-- All calls
-- ---------------------------------------------------------------------------

theorem run_append (r : Registry) (before later : List Call) : r.run (before ++ later) =
    ((r.run before).1 ++ ((r.run before).2.run later).1, ((r.run before).2.run later).2) := by
  induction before generalizing r with
  | nil => rfl
  | cons c before ih => simp [run, ih]

theorem length_run (r : Registry) (calls : List Call) : (r.run calls).1.length = calls.length := by
  induction calls generalizing r with
  | nil => rfl
  | cons c calls ih => simp [run, ih]

theorem reflects_empty : empty.Reflects [] := ⟨by simp [empty, lastChange?], .nil⟩

theorem reflects_run (calls : List Call) : (empty.run calls).2.Reflects (empty.run calls).1 := by
  induction calls using List.reverseRecOn with
  | nil => exact reflects_empty
  | append_singleton calls c ih =>
    rw [run_append]
    exact ih.call c

/-- After any calls from the empty registry on: no id stands twice, and those stand, in order, that were
added last. Each call got the answer that was due when it came, whatever came later, and one that was
answered with `false` changed nothing. -/
theorem run_from_empty (calls : List Call) :
    (empty.run calls).2.ids.Nodup ∧ (empty.run calls).2.Reflects (empty.run calls).1 ∧
    ∀ before c later, calls = before ++ c :: later →
      ∃ a, (empty.run calls).1[before.length]? = some (c, a) ∧ (empty.run before).2.Answers c a ∧
        (a = .changed false → (empty.run (before ++ [c])).2 = (empty.run before).2) := by
  refine ⟨(empty.run calls).2.distinct, reflects_run calls, ?_⟩
  rintro before c later rfl
  refine ⟨((empty.run before).2.call c).1, ?_, answers_call _ c, fun hfalse => ?_⟩
  · rw [run_append, ← length_run empty before]
    simp [run]
  · rw [run_append]
    exact call_unchanged (by simp [hfalse])

end Registry

end SafeFiles
