import Mathlib.Data.List.Induction
import SafeFiles.Disk.Walk

/-!
# Trees of entries

A disk is a tree when every entry stands in a folder under a name that a folder
can hold. `Within` compares two disks entry by entry, and `Same` says that two
disks show the same tree; what the primitive writes do to a tree is stated
entry by entry.
-/

namespace SafeFiles

-- ---------------------------------------------------------------------------
-- Names
-- ---------------------------------------------------------------------------

/-- A name that means nothing but itself in a path. -/
def Name.IsPlain (n : Name) : Prop :=
  n ≠ [] ∧ n ≠ ['.'] ∧ n ≠ ['.', '.'] ∧ '/' ∉ n ∧ '\x00' ∉ n

instance (n : Name) : Decidable n.IsPlain := inferInstanceAs (Decidable (_ ∧ _))

def Name.CanStand (n : Name) : Prop := n.IsPlain ∧ Text.utf8Size n ≤ nameLimit

instance (n : Name) : Decidable n.CanStand := inferInstanceAs (Decidable (_ ∧ _))

theorem Table.mem_of_get? {κ α : Type} [DecidableEq κ] {t : Table κ α} {key : κ} {value : α}
    (h : t.get? key = some value) : (key, value) ∈ t := by
  induction t with
  | nil => cases h
  | cons entry rest ih =>
    rw [Table.get?_cons] at h
    split at h
    · rename_i hkey
      cases h
      simp [← hkey]
    · exact List.mem_cons_of_mem _ (ih h)

namespace Disk

variable {d d' d'' : Disk} {place q : Place} {item : Item} {id : NodeId} {n : Name}

-- ---------------------------------------------------------------------------
-- Well-formed trees
-- ---------------------------------------------------------------------------

/-- Every entry has a name that can stand in a folder, and stands in one. -/
structure WellFormed (d : Disk) : Prop where
  names : ∀ {place item}, d.item? place = some item → ∀ n ∈ place, n.CanStand
  parents : ∀ {folder n}, (d.item? (folder ++ [n])).isSome → d.isFolderAt folder

theorem item?_eq_get? (h : place ≠ []) : d.item? place = d.items.get? place := by
  cases place with
  | nil => exact absurd rfl h
  | cons _ _ => rfl

theorem isFolderAt_iff : d.isFolderAt place ↔ ∃ mode, d.item? place = some (.folder mode) := by
  unfold isFolderAt
  split
  · rename_i mode h; exact ⟨fun _ => ⟨mode, h⟩, fun _ => rfl⟩
  · rename_i h; exact ⟨fun hf => (nomatch hf), fun ⟨mode, hm⟩ => absurd hm (h mode)⟩

theorem isFolderAt_of_item {mode : Mode} (h : d.item? place = some (.folder mode)) : d.isFolderAt place :=
  isFolderAt_iff.mpr ⟨mode, h⟩

theorem isFolderAt_of_leaf (h : d.item? place = some (.leaf id)) : d.isFolderAt place = false := by
  simp [isFolderAt, h]

theorem node?_of_leaf (h : d.item? place = some (.leaf id)) : d.node? place = some (d.node id) := by
  simp [node?, h]

theorem leaf_of_node? {node : Node} (h : d.node? place = some node) :
    ∃ id, d.item? place = some (.leaf id) ∧ d.node id = node := by
  unfold node? at h
  split at h
  · rename_i id hi
    exact ⟨id, hi, Option.some.inj h⟩
  · cases h

theorem isFolderAt_of_node? {node : Node} (h : d.node? place = some node) :
    d.isFolderAt place = false := by
  obtain ⟨id, hi, -⟩ := leaf_of_node? h
  exact isFolderAt_of_leaf hi

theorem isSome_of_isFile (h : (d.node? place).any Node.isFile) : (d.item? place).isSome := by
  unfold node? at h
  cases hi : d.item? place <;> simp_all

theorem isSome_of_isFolderAt (h : d.isFolderAt place) : (d.item? place).isSome := by
  obtain ⟨mode, hi⟩ := isFolderAt_iff.mp h
  simp [hi]

/-- To be well formed is a matter of the listed entries, so it can be checked. -/
theorem WellFormed.of_items (h : ∀ entry ∈ d.items,
    (∀ n ∈ entry.1, n.CanStand) ∧ d.isFolderAt entry.1.dropLast = true) : d.WellFormed := by
  have hmem {place item} (hp : place ≠ []) (hi : d.item? place = some item) :
      (place, item) ∈ d.items := Table.mem_of_get? (item?_eq_get? hp ▸ hi)
  refine ⟨?_, ?_⟩
  · intro place item hi
    by_cases hp : place = []
    · simp [hp]
    · exact (h _ (hmem hp hi)).1
  · intro folder n hs
    obtain ⟨item, hi⟩ := Option.isSome_iff_exists.mp hs
    simpa using (h _ (hmem (by simp) hi)).2

theorem nodup_eraseDups {α : Type} [BEq α] [LawfulBEq α] (xs : List α) : xs.eraseDups.Nodup := by
  cases xs with
  | nil => simp
  | cons x rest =>
    rw [List.eraseDups_cons, List.nodup_cons]
    exact ⟨by simp, nodup_eraseDups _⟩
termination_by xs.length
decreasing_by exact Nat.lt_succ_of_le (List.length_filter_le _ rest)

theorem nodup_names (d : Disk) (folder : Place) : (d.names folder).Nodup := nodup_eraseDups _

theorem WellFormed.plain_of_mem_names (hd : d.WellFormed) (hn : n ∈ d.names place) : n.IsPlain := by
  obtain ⟨item, hi⟩ := Option.isSome_iff_exists.mp ((mem_names_iff d place n).mp hn)
  exact (hd.names hi n (by simp)).1

theorem WellFormed.isFolderAt_above (hd : d.WellFormed) (below : Place) (hne : below ≠ [])
    (h : (d.item? (place ++ below)).isSome) : d.isFolderAt place := by
  induction below using List.reverseRecOn with
  | nil => exact absurd rfl hne
  | append_singleton above n ih =>
    have hf : d.isFolderAt (place ++ above) := hd.parents (by simpa using h)
    by_cases ha : above = []
    · simpa [ha] using hf
    · obtain ⟨mode, hm⟩ := isFolderAt_iff.mp hf
      exact ih ha (by simp [hm])

theorem WellFormed.isFolderAt_of_append (hd : d.WellFormed) {below : Place} (h : d.isFolderAt (place ++ below)) :
    d.isFolderAt place := by
  by_cases hb : below = []
  · simpa [hb] using h
  · obtain ⟨mode, hm⟩ := isFolderAt_iff.mp h
    exact hd.isFolderAt_above below hb (by simp [hm])

theorem WellFormed.item?_below (hd : d.WellFormed) (h : d.isFolderAt place = false)
    {below : Place} (hne : below ≠ []) : d.item? (place ++ below) = none := by
  cases hi : d.item? (place ++ below) with
  | none => rfl
  | some item =>
    have hf : d.isFolderAt place := hd.isFolderAt_above below hne (by simp [hi])
    simp [h] at hf

theorem WellFormed.item?_below_empty (hd : d.WellFormed) (h : d.names place = [])
    {below : Place} (hne : below ≠ []) : d.item? (place ++ below) = none := by
  obtain ⟨n, rest, rfl⟩ := List.exists_cons_of_ne_nil hne
  have hn : d.item? (place ++ [n]) = none := by
    cases hi : d.item? (place ++ [n]) with
    | none => rfl
    | some item => exact absurd ((mem_names_iff d place n).mpr (by simp [hi])) (by simp [h])
  by_cases hr : rest = []
  · simpa [hr] using hn
  · have hnf : d.isFolderAt (place ++ [n]) = false := by simp [isFolderAt, hn]
    simpa using hd.item?_below hnf hr

theorem WellFormed.not_prefix_of_folder (hd : d.WellFormed) (hq : d.isFolderAt q)
    (h : d.isFolderAt place = false) : ¬ place <+: q := by
  rintro ⟨below, rfl⟩
  by_cases hb : below = []
  · simp [hb, h] at hq
  · obtain ⟨mode, hm⟩ := isFolderAt_iff.mp hq
    simp [hd.item?_below h hb] at hm

-- ---------------------------------------------------------------------------
-- One disk within another
-- ---------------------------------------------------------------------------

/-- Every entry of `d` is an entry of `d'`, with the same content. -/
structure Within (d d' : Disk) : Prop where
  item : ∀ {place item}, d.item? place = some item → d'.item? place = some item
  node : ∀ {place id}, d.item? place = some (.leaf id) → d'.node id = d.node id

theorem Within.refl (d : Disk) : d.Within d := ⟨fun h => h, fun _ => rfl⟩

theorem Within.trans (h : d.Within d') (h' : d'.Within d'') : d.Within d'' :=
  ⟨fun hi => h'.item (h.item hi), fun hi => (h'.node (h.item hi)).trans (h.node hi)⟩

theorem Within.isFolderAt (h : d.Within d') (hf : d.isFolderAt place) : d'.isFolderAt place := by
  obtain ⟨mode, hm⟩ := isFolderAt_iff.mp hf
  exact isFolderAt_of_item (h.item hm)

theorem Within.node? {node : Node} (h : d.Within d') (hn : d.node? place = some node) :
    d'.node? place = some node := by
  obtain ⟨id, hi, rfl⟩ := leaf_of_node? hn
  rw [node?_of_leaf (h.item hi), h.node hi]

theorem item?_eraseItem_eq_some (hne : place ≠ []) :
    (d.eraseItem place).item? q = some item ↔ place ≠ q ∧ d.item? q = some item := by
  rw [item?_eraseItem d place q hne]
  split <;> simp [*]

theorem within_eraseItem (hne : place ≠ []) : (d.eraseItem place).Within d :=
  ⟨fun hi => ((item?_eraseItem_eq_some hne).mp hi).2, fun _ => rfl⟩

theorem isFolderAt_eraseItem (hne : place ≠ []) (hq : place ≠ q) :
    (d.eraseItem place).isFolderAt q = d.isFolderAt q := by
  rw [isFolderAt, item?_eraseItem d place q hne, if_neg hq]
  rfl

theorem WellFormed.eraseItem (hd : d.WellFormed) (hne : place ≠ [])
    (h : ∀ below, below ≠ [] → d.item? (place ++ below) = none) : (d.eraseItem place).WellFormed := by
  have hw : (d.eraseItem place).Within d := within_eraseItem hne
  refine ⟨fun hq => hd.names (hw.item hq), fun {folder n} hs => ?_⟩
  obtain ⟨item, hi⟩ := Option.isSome_iff_exists.mp hs
  have hf : d.isFolderAt folder := hd.parents (n := n) (by rw [hw.item hi]; rfl)
  have hother : place ≠ folder := by
    rintro rfl
    have hnone := h [n] (by simp)
    rw [hw.item hi] at hnone
    cases hnone
  rwa [isFolderAt_eraseItem hne hother]

theorem Within.eraseItem (h : d.Within d') (hne : place ≠ []) :
    (d.eraseItem place).Within (d'.eraseItem place) := by
  refine ⟨fun hi => ?_, fun hi => h.node ((item?_eraseItem_eq_some hne).mp hi).2⟩
  obtain ⟨hplace, hi⟩ := (item?_eraseItem_eq_some hne).mp hi
  exact (item?_eraseItem_eq_some hne).mpr ⟨hplace, h.item hi⟩

-- ---------------------------------------------------------------------------
-- The same tree
-- ---------------------------------------------------------------------------

/-- The same entry, or none, stands at `q` on both disks, and its content is the same. -/
def SameAt (d d' : Disk) (q : Place) : Prop := d'.item? q = d.item? q ∧ d'.node? q = d.node? q

/-- Both disks show the same tree. Nodes that no entry uses do not count. -/
structure Same (d d' : Disk) : Prop where
  entries : ∀ q, d.SameAt d' q
  cwd : d'.cwd = d.cwd

theorem SameAt.refl (d : Disk) (q : Place) : d.SameAt d q := ⟨rfl, rfl⟩

theorem SameAt.trans (h : d.SameAt d' q) (h' : d'.SameAt d'' q) : d.SameAt d'' q :=
  ⟨h'.1.trans h.1, h'.2.trans h.2⟩

theorem Same.refl (d : Disk) : d.Same d := ⟨.refl d, rfl⟩

theorem SameAt.of_item (hi : d'.item? q = d.item? q)
    (hn : ∀ id, d.item? q = some (.leaf id) → d'.node id = d.node id) : d.SameAt d' q := by
  refine ⟨hi, ?_⟩
  cases h : d.item? q with
  | none => simp [node?, hi, h]
  | some item =>
    cases item with
    | folder mode => simp [node?, hi, h]
    | leaf id => simp [node?, hi, h, hn id h]

theorem Within.sameAt (h : d.Within d') {item : Item} (hi : d.item? q = some item) : d.SameAt d' q :=
  .of_item ((h.item hi).trans hi.symm) fun _ hl => h.node hl

theorem Within.sameAt_or_new (h : d.Within d') (q : Place) :
    d.SameAt d' q ∨ d.item? q = none ∧ ∃ item, d'.item? q = some item := by
  cases hi : d.item? q with
  | some item => exact .inl (h.sameAt hi)
  | none =>
    cases hi' : d'.item? q with
    | none => exact .inl (.of_item (hi'.trans hi.symm) fun _ hl => by simp [hi] at hl)
    | some item => exact .inr ⟨rfl, item, rfl⟩

-- ---------------------------------------------------------------------------
-- New entries
-- ---------------------------------------------------------------------------

theorem ne_freshId_of_item (h : d.item? place = some (.leaf id)) : id ≠ d.freshId := by
  by_cases hp : place = []
  · simp [hp, item?] at h
  · exact ne_freshId (by rwa [← item?_eq_get? hp])

theorem item?_addNode (d : Disk) (node : Node) (q : Place) (h : place ≠ []) :
    (d.addNode place node).item? q = if place = q then some (.leaf d.freshId) else d.item? q := by
  rw [addNode, item?_setItem _ _ _ _ h, item?_setNode]

theorem node_addNode (d : Disk) (place : Place) (node : Node) (id : NodeId) :
    (d.addNode place node).node id = if d.freshId = id then node else d.node id := by
  rw [addNode, node_setItem, node_setNode]

theorem within_setItem (item : Item) (hne : place ≠ []) (h : d.item? place = none) :
    d.Within (d.setItem place item) := by
  refine ⟨fun {q kept} hi => ?_, fun _ => rfl⟩
  rw [item?_setItem d place q item hne, if_neg, hi]
  rintro rfl
  simp [h] at hi

theorem within_addNode (node : Node) (hne : place ≠ []) (h : d.item? place = none) :
    d.Within (d.addNode place node) := by
  have hitem := within_setItem (.leaf d.freshId) hne h
  refine ⟨fun {q item} hi => ?_, fun {q id} hi => ?_⟩
  · rw [item?_addNode d node q hne, ← item?_setItem d place q _ hne]
    exact hitem.item hi
  · rw [node_addNode, if_neg (ne_freshId_of_item hi).symm]

theorem WellFormed.setItem (hd : d.WellFormed) (item : Item) {folder : Place}
    (hf : d.isFolderAt folder) (hn : n.CanStand) (h : d.item? (folder ++ [n]) = none) :
    (d.setItem (folder ++ [n]) item).WellFormed := by
  have hw : d.Within (d.setItem (folder ++ [n]) item) := within_setItem item (by simp) h
  obtain ⟨mode, hm⟩ := isFolderAt_iff.mp hf
  refine ⟨?_, ?_⟩
  · intro place item hi m hmem
    rw [item?_setItem d _ place _ (by simp)] at hi
    split at hi
    · rename_i heq
      subst heq
      rcases List.mem_append.mp hmem with hmem | hmem
      · exact hd.names hm m hmem
      · rw [List.mem_singleton.mp hmem]
        exact hn
    · exact hd.names hi m hmem
  · intro above m hs
    rw [item?_setItem d _ _ _ (by simp)] at hs
    split at hs
    · rename_i heq
      rw [← (List.append_inj' heq rfl).1]
      exact hw.isFolderAt hf
    · exact hw.isFolderAt (hd.parents hs)

/-- A tree depends on its entries only, not on what their nodes hold. -/
theorem WellFormed.of_item? (hd : d.WellFormed) (h : ∀ q, d'.item? q = d.item? q) :
    d'.WellFormed := by
  refine ⟨fun hi => hd.names (h _ ▸ hi), fun hs => ?_⟩
  have hf := hd.parents (h _ ▸ hs)
  simpa [Disk.isFolderAt, h] using hf

theorem WellFormed.addNode (hd : d.WellFormed) (node : Node) {folder : Place}
    (hf : d.isFolderAt folder) (hn : n.CanStand) (h : d.item? (folder ++ [n]) = none) :
    (d.addNode (folder ++ [n]) node).WellFormed :=
  (hd.setItem (.leaf d.freshId) hf hn h).of_item? fun q => by
    rw [item?_addNode d node q (by simp), item?_setItem d _ q _ (by simp)]

end Disk

end SafeFiles
