import SafeFiles.Table
import SafeFiles.Text

/-!
# Settings

Settings map keys to values. They are kept in ascending order of their keys, so
two settings with the same entries are equal (`ext_get?`).
-/

namespace SafeFiles

structure Settings where
  entries : List (Text × Text)
  sorted : entries.Pairwise fun a b => a.1 < b.1

namespace Settings

instance : DecidableEq Settings := fun a b =>
  if h : a.entries = b.entries then isTrue (by cases a; cases b; cases h; rfl)
  else isFalse fun e => h (congrArg entries e)

def empty : Settings := ⟨[], .nil⟩

instance : Inhabited Settings := ⟨empty⟩

def insertSorted (key value : Text) : List (Text × Text) → List (Text × Text)
  | [] => [(key, value)]
  | (k, v) :: rest =>
    if key < k then (key, value) :: (k, v) :: rest
    else if key = k then (key, value) :: rest
    else (k, v) :: insertSorted key value rest

theorem lt_of_not_lt {a b : Text} (h : ¬ a < b) (hne : a ≠ b) : b < a := by
  refine Classical.byContradiction fun h' => hne ?_
  exact List.le_antisymm (List.not_lt.1 h') (List.not_lt.1 h)

theorem mem_insertSorted {key value : Text} {entries : List (Text × Text)} {entry : Text × Text}
    (h : entry ∈ insertSorted key value entries) : entry = (key, value) ∨ entry ∈ entries := by
  induction entries with
  | nil => simpa [insertSorted] using h
  | cons first rest ih =>
    obtain ⟨k, v⟩ := first
    simp only [insertSorted] at h
    split at h
    · simpa using h
    · split at h
      · rcases List.mem_cons.1 h with h | h
        · exact .inl h
        · exact .inr (List.mem_cons_of_mem _ h)
      · rcases List.mem_cons.1 h with h | h
        · exact .inr (h ▸ List.mem_cons_self)
        · exact (ih h).imp id (List.mem_cons_of_mem _)

theorem sorted_insertSorted (key value : Text) {entries : List (Text × Text)}
    (h : entries.Pairwise fun a b => a.1 < b.1) :
    (insertSorted key value entries).Pairwise fun a b => a.1 < b.1 := by
  induction entries with
  | nil => simp [insertSorted]
  | cons first rest ih =>
    obtain ⟨k, v⟩ := first
    obtain ⟨hfirst, hrest⟩ := List.pairwise_cons.1 h
    simp only [insertSorted]
    split
    · next hlt =>
      refine List.pairwise_cons.2 ⟨fun entry hmem => ?_, h⟩
      rcases List.mem_cons.1 hmem with rfl | hmem
      · exact hlt
      · exact List.lt_trans hlt (hfirst _ hmem)
    · split
      · next heq => subst heq; exact List.pairwise_cons.2 ⟨hfirst, hrest⟩
      · next hnlt hne =>
        refine List.pairwise_cons.2 ⟨fun entry hmem => ?_, ih hrest⟩
        rcases mem_insertSorted hmem with rfl | hmem
        · exact lt_of_not_lt hnlt hne
        · exact hfirst _ hmem

/-- A later value for a key replaces the earlier one. -/
def insert (s : Settings) (key value : Text) : Settings :=
  ⟨insertSorted key value s.entries, sorted_insertSorted key value s.sorted⟩

def ofList (entries : List (Text × Text)) : Settings :=
  entries.foldl (fun s entry => s.insert entry.1 entry.2) empty

def get? (s : Settings) (key : Text) : Option Text := Table.get? s.entries key

theorem get?_insertSorted (key value other : Text) (entries : List (Text × Text)) :
    Table.get? (insertSorted key value entries) other =
      if key = other then some value else Table.get? entries other := by
  induction entries with
  | nil => rfl
  | cons first rest ih =>
    obtain ⟨k, v⟩ := first
    simp only [insertSorted]
    split
    · rfl
    · split
      · next heq => subst heq; by_cases h : key = other <;> simp [Table.get?_cons, h]
      · next hne =>
        by_cases h : key = other
        · subst h; simp [Table.get?_cons, Ne.symm hne, ih]
        · simp [Table.get?_cons, h, ih]

theorem get?_insert (s : Settings) (key value other : Text) :
    (s.insert key value).get? other = if key = other then some value else s.get? other :=
  get?_insertSorted key value other s.entries

theorem get?_eq_none_of_lt {key : Text} {entries : List (Text × Text)}
    (h : ∀ entry ∈ entries, key < entry.1) : Table.get? entries key = none := by
  induction entries with
  | nil => rfl
  | cons first rest ih =>
    have hne : first.1 ≠ key := fun e =>
      List.lt_irrefl first.1 ((congrArg (· < first.1) e).mpr (h first List.mem_cons_self))
    rw [Table.get?_cons, if_neg hne]
    exact ih fun entry hmem => h entry (List.mem_cons_of_mem _ hmem)

theorem first_key_le {x y : Text × Text} {xs ys : List (Text × Text)}
    (hys : (y :: ys).Pairwise fun a b => a.1 < b.1)
    (h : ∀ key, Table.get? (x :: xs) key = Table.get? (y :: ys) key) : ¬ x.1 < y.1 := by
  intro hlt
  have hnone : Table.get? (y :: ys) x.1 = none :=
    get?_eq_none_of_lt fun entry hmem => by
      rcases List.mem_cons.1 hmem with rfl | hmem
      · exact hlt
      · exact List.lt_trans hlt ((List.pairwise_cons.1 hys).1 _ hmem)
  have := h x.1
  rw [hnone, Table.get?_cons, if_pos rfl] at this
  cases this

theorem eq_of_get? {a b : List (Text × Text)} (ha : a.Pairwise fun x y => x.1 < y.1)
    (hb : b.Pairwise fun x y => x.1 < y.1) (h : ∀ key, Table.get? a key = Table.get? b key) :
    a = b := by
  induction a generalizing b with
  | nil =>
    cases b with
    | nil => rfl
    | cons y ys =>
      have := h y.1
      rw [Table.get?_cons, if_pos rfl] at this
      cases this
  | cons x xs ih =>
    cases b with
    | nil =>
      have := h x.1
      rw [Table.get?_cons, if_pos rfl] at this
      cases this
    | cons y ys =>
      have hkey : x.1 = y.1 := Classical.byContradiction fun hne =>
        first_key_le ha (fun key => (h key).symm) (lt_of_not_lt (first_key_le hb h) hne)
      have hvalue : x.2 = y.2 := by
        have := h x.1
        rw [Table.get?_cons, if_pos rfl, Table.get?_cons, if_pos hkey.symm] at this
        exact Option.some.inj this
      have hrest : xs = ys := by
        refine ih (List.pairwise_cons.1 ha).2 (List.pairwise_cons.1 hb).2 fun key => ?_
        by_cases hk : x.1 = key
        · rw [get?_eq_none_of_lt fun entry hmem => hk ▸ (List.pairwise_cons.1 ha).1 entry hmem,
            get?_eq_none_of_lt fun entry hmem =>
              (hkey.symm.trans hk) ▸ (List.pairwise_cons.1 hb).1 entry hmem]
        · have := h key
          rwa [Table.get?_cons, if_neg hk, Table.get?_cons, if_neg (hkey ▸ hk)] at this
      rw [Prod.ext hkey hvalue, hrest]

theorem ext_get? {a b : Settings} (h : ∀ key, a.get? key = b.get? key) : a = b := by
  obtain ⟨entries, sorted⟩ := a
  obtain ⟨entries', sorted'⟩ := b
  have := eq_of_get? sorted sorted' h
  subst this
  rfl

end Settings

end SafeFiles
