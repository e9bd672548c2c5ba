import SafeFiles.Text

/-!
# The locker registry

Lockers are components that may hold a file open. They are registered by
identity, each at most once, and kept in the order in which they came.
-/

namespace SafeFiles

abbrev LockerId := Text

structure Registry where
  ids : List LockerId
  distinct : ids.Nodup
  deriving DecidableEq

namespace Registry

def empty : Registry := ⟨[], .nil⟩

instance : Inhabited Registry := ⟨empty⟩

theorem nodup_append_singleton {ids : List LockerId} {id : LockerId} (h : ids.Nodup)
    (hid : id ∉ ids) : (ids ++ [id]).Nodup := by
  refine List.nodup_append.2 ⟨h, by simp, fun a ha b hb => ?_⟩
  rw [List.mem_singleton.1 hb]
  exact fun e => hid (e ▸ ha)

/-- A new id goes to the end; a known one changes nothing. True if the id is new. -/
def add (r : Registry) (id : LockerId) : Bool × Registry :=
  if h : r.ids.contains id then (false, r)
  else (true, ⟨r.ids ++ [id], nodup_append_singleton r.distinct (mt List.contains_iff_mem.mpr h)⟩)

/-- True if the id was there. -/
def remove (r : Registry) (id : LockerId) : Bool × Registry :=
  (r.ids.contains id, ⟨r.ids.erase id, r.distinct.erase id⟩)

theorem mem_ids_add (r : Registry) (id other : LockerId) :
    other ∈ (r.add id).2.ids ↔ other = id ∨ other ∈ r.ids := by
  unfold add
  split
  · next h => exact ⟨.inr, fun hor => hor.elim (· ▸ List.contains_iff_mem.mp h) fun h => h⟩
  · simp [or_comm]

theorem mem_ids_remove (r : Registry) (id other : LockerId) :
    other ∈ (r.remove id).2.ids ↔ other ≠ id ∧ other ∈ r.ids :=
  r.distinct.mem_erase_iff

end Registry

end SafeFiles
