/-!
# Tables

A table is a list of keyed values in which the first match counts. `get?_set`
and `get?_erase` say how a write shows in later reads.
-/

namespace SafeFiles

abbrev Table (κ α : Type) := List (κ × α)

namespace Table

variable {κ α : Type} [DecidableEq κ]

def get? : Table κ α → κ → Option α
  | [], _ => none
  | (k, v) :: rest, key => if k = key then some v else get? rest key

def erase : Table κ α → κ → Table κ α
  | [], _ => []
  | (k, v) :: rest, key => if k = key then erase rest key else (k, v) :: erase rest key

/-- A changed value keeps its place in the list; a new key goes to the end. -/
def set : Table κ α → κ → α → Table κ α
  | [], key, value => [(key, value)]
  | (k, v) :: rest, key, value =>
    if k = key then (key, value) :: erase rest key else (k, v) :: set rest key value

def keys (t : Table κ α) : List κ := t.map Prod.fst

def contains (t : Table κ α) (key : κ) : Bool := (t.get? key).isSome

theorem get?_cons (entry : κ × α) (rest : Table κ α) (key : κ) :
    get? (entry :: rest) key = if entry.1 = key then some entry.2 else get? rest key := rfl

theorem get?_append (t u : Table κ α) (key : κ) :
    get? (t ++ u) key = (get? t key).or (get? u key) := by
  induction t with
  | nil => rfl
  | cons entry rest ih =>
    simp only [List.cons_append, get?_cons, ih]
    split <;> rfl

theorem get?_erase (t : Table κ α) (key other : κ) :
    (t.erase key).get? other = if key = other then none else t.get? other := by
  induction t with
  | nil => simp [erase, get?]
  | cons entry rest ih =>
    obtain ⟨k, v⟩ := entry
    simp only [erase]
    by_cases hk : k = key
    · subst hk
      by_cases ho : k = other
      · subst ho; simp [ih]
      · simp [ih, ho, get?]
    · by_cases ho : k = other
      · subst ho; simp [hk, get?, Ne.symm hk]
      · simp [hk, get?, ho, ih]

theorem get?_set (t : Table κ α) (key other : κ) (value : α) :
    (t.set key value).get? other = if key = other then some value else t.get? other := by
  induction t with
  | nil => simp [set, get?]
  | cons entry rest ih =>
    obtain ⟨k, v⟩ := entry
    simp only [set]
    by_cases hk : k = key
    · subst hk
      by_cases ho : k = other <;> simp [get?, get?_erase, ho]
    · by_cases ho : k = other
      · subst ho; simp [hk, get?, Ne.symm hk]
      · simp [hk, get?, ho, ih]

theorem mem_keys_iff (t : Table κ α) (key : κ) : key ∈ t.keys ↔ (t.get? key).isSome := by
  induction t with
  | nil => simp [keys, get?]
  | cons entry rest ih =>
    obtain ⟨k, v⟩ := entry
    simp only [keys, List.map_cons, List.mem_cons, get?] at ih ⊢
    by_cases hk : k = key
    · simp [hk]
    · simp [hk, Ne.symm hk, ih]

end Table

end SafeFiles
