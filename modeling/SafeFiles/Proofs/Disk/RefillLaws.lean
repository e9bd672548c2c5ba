import SafeFiles.Canonical
import SafeFiles.Proofs.GateLaws

/-!
# Bytes that nothing looks at

To find a path, and to make or remove an entry, the disk is asked for folders, links
and nodes that stay fixed, never for the bytes of a regular file. So all these calls
say the same on a disk with other bytes in one file, and leave the same disk but for
those bytes (`refill`).
-/

namespace SafeFiles

namespace Table

variable {κ α : Type} [DecidableEq κ] {key other : κ}

theorem erase_eq_filter (t : Table κ α) (key : κ) : Table.erase t key = t.filter fun entry => entry.1 ≠ key := by
  induction t with
  | nil => rfl
  | cons entry rest ih => by_cases h : entry.1 = key <;> simp [Table.erase, ih, h]

theorem erase_comm (t : Table κ α) (key other : κ) :
    Table.erase (Table.erase t key) other = Table.erase (Table.erase t other) key := by
  simp only [erase_eq_filter, List.filter_filter, Bool.and_comm]

theorem erase_set (t : Table κ α) (value : α) (hne : key ≠ other) :
    Table.erase (Table.set t other value) key = Table.set (Table.erase t key) other value := by
  induction t with
  | nil => simp [Table.set, Table.erase, Ne.symm hne]
  | cons entry rest ih =>
    obtain ⟨k, v⟩ := entry
    by_cases ho : k = other
    · subst ho
      simp [Table.set, Table.erase, Ne.symm hne, erase_comm rest k key]
    · by_cases hk : k = key <;> simp [Table.set, Table.erase, ho, hk, hne, ih]

theorem set_comm {t : Table κ α} (value value' : α) (hne : key ≠ other) (h : (t.get? key).isSome) :
    (t.set other value').set key value = (t.set key value).set other value' := by
  induction t with
  | nil => cases h
  | cons entry rest ih =>
    obtain ⟨k, v⟩ := entry
    by_cases hk : k = key
    · subst hk
      simp [Table.set, hne, erase_set rest value' hne]
    · rw [get?_cons, if_neg hk] at h
      by_cases ho : k = other
      · subst ho
        simp [Table.set, hk, erase_set rest value (Ne.symm hne)]
      · simp [Table.set, hk, ho, ih h]

end Table

namespace Disk

variable {d : Disk} {id : NodeId} {mode : Mode} {bytes : Bytes} {place : Place} {p : Path} {final : Final}

/-- The disk with other bytes in the file `id`. -/
def refill (d : Disk) (id : NodeId) (mode : Mode) (bytes : Bytes) : Disk :=
  d.setNode id (.file mode bytes)

def HasFile (d : Disk) (id : NodeId) : Prop :=
  ∃ mode bytes, d.nodes.get? id = some (.file mode bytes)

@[simp] theorem item?_refill : (d.refill id mode bytes).item? place = d.item? place :=
  item?_setNode d id _ place

@[simp] theorem isFolderAt_refill : (d.refill id mode bytes).isFolderAt place = d.isFolderAt place := by
  simp [isFolderAt]

@[simp] theorem names_refill : (d.refill id mode bytes).names place = d.names place := rfl

@[simp] theorem child_refill (n : Name) : (d.refill id mode bytes).child place n = d.child place n := by
  simp [child]

theorem HasFile.node_refill (h : d.HasFile id) (mode : Mode) (bytes : Bytes) (other : NodeId) :
    (d.refill id mode bytes).node other = d.node other ∨
      (∃ old kept, d.node other = .file old kept) ∧ (d.refill id mode bytes).node other = .file mode bytes := by
  obtain ⟨old, kept, hfile⟩ := h
  rw [refill, node_setNode]
  split
  · rename_i heq
    subst heq
    exact .inr ⟨⟨old, kept, by simp [Disk.node, hfile]⟩, rfl⟩
  · exact .inl rfl

theorem absolute_refill : (d.refill id mode bytes).absolute p = d.absolute p := by
  simp only [absolute, isFolderAt_refill]
  rfl

section
variable (h : d.HasFile id)
include h

-- ---------------------------------------------------------------------------
-- Questions
-- ---------------------------------------------------------------------------

theorem HasFile.any_node?_refill {property : Node → Bool}
    (hfile : ∀ m b m' b', property (.file m b) = property (.file m' b')) :
    ((d.refill id mode bytes).node? place).any property = (d.node? place).any property := by
  simp only [node?, item?_refill]
  cases d.item? place with
  | none => rfl
  | some item =>
    cases item with
    | folder _ => rfl
    | leaf other =>
      rcases h.node_refill mode bytes other with hsame | ⟨⟨old, kept, hold⟩, hnew⟩
      · simp [hsame]
      · simp [hold, hnew, hfile mode bytes old kept]

theorem HasFile.isLinkAt_refill : (d.refill id mode bytes).isLinkAt place = d.isLinkAt place :=
  h.any_node?_refill fun _ _ _ _ => rfl

theorem HasFile.stride_refill (through : Place → List Step → Except Errno Spot) :
    (d.refill id mode bytes).stride final through = d.stride final through := by
  funext here steps
  induction steps generalizing here with
  | nil => rfl
  | cons step rest ih =>
    cases step with
    | stay => exact ih here
    | slash => exact ih here
    | up => exact ih here.dropLast
    | down n =>
      simp only [stride, item?_refill, isFolderAt_refill, ih]
      cases d.item? (here ++ [n]) with
      | none => rfl
      | some item =>
        cases item with
        | folder _ => rfl
        | leaf other =>
          rcases h.node_refill mode bytes other with hsame | ⟨⟨old, kept, hold⟩, hnew⟩
          · simp only [hsame]
          · simp only [hold, hnew]

theorem HasFile.walk_refill (links : Nat) : (d.refill id mode bytes).walk final links = d.walk final links := by
  induction links with
  | zero => exact h.stride_refill _
  | succ links ih => rw [walk, walk, ih, h.stride_refill]

theorem HasFile.locate_refill : (d.refill id mode bytes).locate final p = d.locate final p := by
  simp only [locate, h.walk_refill]
  rfl

theorem HasFile.seek_refill : (d.refill id mode bytes).seek final p = d.seek final p := by
  simp only [seek, h.locate_refill, item?_refill]

theorem HasFile.stat_refill : (d.refill id mode bytes).stat p = d.stat p := h.seek_refill

theorem HasFile.lstat_refill : (d.refill id mode bytes).lstat p = d.lstat p := h.seek_refill

theorem HasFile.folderOf_refill : (d.refill id mode bytes).folderOf p = d.folderOf p := by
  simp only [folderOf, h.walk_refill, isFolderAt_refill]
  rfl

theorem HasFile.realPlace_refill : (d.refill id mode bytes).realPlace p = d.realPlace p := by
  simp only [realPlace, h.walk_refill]
  rfl

theorem HasFile.isFolder_refill : (d.refill id mode bytes).isFolder p = d.isFolder p := by
  simp only [isFolder, h.stat_refill, isFolderAt_refill]

theorem HasFile.list_refill : (d.refill id mode bytes).list p = d.list p := by
  simp only [list, h.stat_refill, isFolderAt_refill, names_refill]

theorem HasFile.throughLink_refill : (d.refill id mode bytes).throughLink p = d.throughLink p := by
  unfold throughLink
  induction p.properAncestors with
  | nil => rfl
  | cons a rest ih =>
    cases a with
    | nil => exact ih
    | cons c t => simp only [anyLink, h.lstat_refill, h.isLinkAt_refill, ih]

theorem HasFile.deepest_refill (abs : Path) (cs : List Component) (n : Nat) :
    (d.refill id mode bytes).deepest abs cs n = d.deepest abs cs n := by
  induction n with
  | zero => rfl
  | succ n ih => simp only [deepest, h.realPlace_refill, ih]

theorem HasFile.canonicalPlace_refill : (d.refill id mode bytes).canonicalPlace p = d.canonicalPlace p := by
  simp only [canonicalPlace, h.realPlace_refill, absolute_refill, canonicalMissing, h.deepest_refill]

-- ---------------------------------------------------------------------------
-- Changes
-- ---------------------------------------------------------------------------

theorem HasFile.isFixed_refill (other : NodeId) :
    ((d.refill id mode bytes).node other).isFixed = (d.node other).isFixed := by
  rcases h.node_refill mode bytes other with hsame | ⟨⟨old, kept, hold⟩, hnew⟩
  · rw [hsame]
  · rw [hold, hnew]
    rfl

theorem HasFile.unlink_refill :
    (d.refill id mode bytes).unlink p = (d.unlink p).map (·.refill id mode bytes) := by
  simp only [unlink, h.folderOf_refill, child_refill, h.isFixed_refill]
  rcases d.folderOf p with f | ⟨folder, last⟩
  · rfl
  cases last with
  | name n slash =>
    rcases hc : d.child folder n with f | _ | ⟨_ | other⟩
    · simp [bind, Except.bind, Except.map, hc]
    · simp [bind, Except.bind, Except.map, hc]
    · simp [bind, Except.bind, Except.map, hc]
    · simp only [bind, Except.bind, hc]
      split
      · rfl
      · split <;> rfl
  | _ => rfl

theorem HasFile.removeFolder_refill :
    (d.refill id mode bytes).removeFolder p = (d.removeFolder p).map (·.refill id mode bytes) := by
  simp only [removeFolder, h.folderOf_refill, child_refill, names_refill]
  rcases d.folderOf p with f | ⟨folder, last⟩
  · rfl
  cases last with
  | name n slash =>
    rcases hc : d.child folder n with f | _ | ⟨_ | other⟩
    · simp [bind, Except.bind, Except.map, hc]
    · simp [bind, Except.bind, Except.map, hc]
    · by_cases hempty : d.names (folder ++ [n]) = []
      · simp [bind, Except.bind, Except.map, hc, hempty]
        rfl
      · simp [bind, Except.bind, Except.map, hc, hempty]
    · simp [bind, Except.bind, Except.map, hc]
  | _ => rfl

theorem HasFile.makeFolder_refill :
    (d.refill id mode bytes).makeFolder p = (d.makeFolder p).map (·.refill id mode bytes) := by
  have hvacancy : (d.refill id mode bytes).vacancy p true = d.vacancy p true := by
    simp only [vacancy, h.folderOf_refill, child_refill]
  simp only [makeFolder, hvacancy]
  cases d.vacancy p true <;> rfl

end

theorem HasFile.makeFolder (h : d.HasFile id) {d' : Disk} (hmade : d.makeFolder p = .ok d') : d'.HasFile id := by
  obtain ⟨_, -, hd'⟩ := bind_eq_ok.mp hmade
  cases hd'
  exact h

theorem HasFile.makeFoldersFrom (h : d.HasFile id) (paths : List Path) :
    (d.makeFoldersFrom paths).2.HasFile id :=
  makeFoldersFrom_keeps (P := (HasFile · id)) (fun _ _ _ _ _ hfile hmade => hfile.makeFolder hmade) h

theorem HasFile.makeFoldersFrom_refill (h : d.HasFile id) (paths : List Path) :
    (d.refill id mode bytes).makeFoldersFrom paths =
      ((d.makeFoldersFrom paths).1, (d.makeFoldersFrom paths).2.refill id mode bytes) := by
  induction paths with
  | nil => rfl
  | cons a above ih =>
    have hafter := h.makeFoldersFrom above
    simp only [Disk.makeFoldersFrom, h.makeFolder_refill, h.isFolder_refill, ih]
    split
    · rfl
    cases d.makeFolder a with
    | ok made => rfl
    | error f =>
      simp only [Except.map]
      split
      · rcases hmade : d.makeFoldersFrom above with ⟨_ | _, after⟩
        · rfl
        · rw [hmade] at hafter
          simp only [hafter.makeFolder_refill, hafter.isFolder_refill]
          cases after.makeFolder a with
          | ok made => rfl
          | error f =>
            simp only [Except.map]
            split <;> rfl
      · split <;> rfl

theorem foldl_max_le {ids : List Nat} {start bound : Nat} (hstart : start ≤ bound)
    (h : ∀ id ∈ ids, id ≤ bound) : ids.foldl max start ≤ bound := by
  induction ids generalizing start with
  | nil => exact hstart
  | cons first rest ih =>
    exact ih (Nat.max_le.mpr ⟨hstart, h first List.mem_cons_self⟩) fun id hid => h id (List.mem_cons_of_mem _ hid)

theorem HasFile.freshId_refill (h : d.HasFile id) : (d.refill id mode bytes).freshId = d.freshId := by
  obtain ⟨old, kept, hfile⟩ := h
  have hkeys (other : NodeId) : other ∈ (d.refill id mode bytes).nodes.keys ↔ other ∈ d.nodes.keys := by
    rw [Table.mem_keys_iff, Table.mem_keys_iff, refill, setNode, Table.get?_set]
    split
    · rename_i heq
      simp [← heq, hfile]
    · rfl
  refine congrArg (· + 1) (Nat.le_antisymm ?_ ?_) <;>
    refine foldl_max_le (Nat.zero_le _) fun other hother => (le_foldl_max _ 0).2 other ?_ <;>
    rw [List.mem_append] at hother ⊢
  · exact hother.imp (fun hleaf => hleaf) (hkeys other).mp
  · exact hother.imp (fun hleaf => hleaf) (hkeys other).mpr

theorem HasFile.ne_freshId (h : d.HasFile id) : id ≠ d.freshId := by
  obtain ⟨old, kept, hfile⟩ := h
  have hmem : id ∈ d.leafIds ++ d.nodes.keys :=
    List.mem_append_right _ ((Table.mem_keys_iff _ _).mpr (by simp [hfile]))
  exact Nat.ne_of_lt (Nat.lt_succ_of_le ((le_foldl_max _ 0).2 id hmem))

theorem HasFile.addNode (h : d.HasFile id) (place : Place) (node : Node) : (d.addNode place node).HasFile id := by
  obtain ⟨old, kept, hfile⟩ := h
  refine ⟨old, kept, ?_⟩
  have hne := HasFile.ne_freshId ⟨old, kept, hfile⟩
  rw [Disk.addNode, setItem, setNode, Table.get?_set, if_neg hne.symm, hfile]

theorem HasFile.addNode_refill (h : d.HasFile id) (place : Place) (node : Node) :
    (d.refill id mode bytes).addNode place node = (d.addNode place node).refill id mode bytes := by
  have hne := h.ne_freshId
  have hfresh : (d.refill id mode bytes).freshId = d.freshId := h.freshId_refill
  obtain ⟨old, kept, hfile⟩ := h
  rw [Disk.addNode, hfresh]
  simp only [Disk.addNode, refill, setNode, setItem]
  rw [Table.set_comm _ _ hne (by simp [hfile])]

theorem HasFile.openWrite_refill (h : d.HasFile id) (created : Mode) :
    (d.refill id mode bytes).openWrite p { truncate := false, mode := created } =
      (d.openWrite p { truncate := false, mode := created }).map fun opened =>
        (opened.1, opened.2.refill id mode bytes) := by
  simp only [openWrite, h.locate_refill, item?_refill]
  rcases d.locate .create p with f | target | ⟨folder, n⟩
  · rfl
  · simp only [bind, Except.bind]
    rcases d.item? target with _ | _ | other
    · rfl
    · rfl
    · rcases h.node_refill mode bytes other with hsame | ⟨⟨old, kept, hold⟩, hnew⟩
      · simp only [hsame]
        cases d.node other <;> rfl
      · simp only [hold, hnew]
        rfl
  · simp only [bind, Except.bind, h.addNode_refill]
    rfl

theorem HasFile.openWrite (h : d.HasFile id) {created : Mode} {d' : Disk}
    (ho : d.openWrite p { truncate := false, mode := created } = .ok (place, d')) : d'.HasFile id := by
  rcases openWrite_ok ho with ⟨folder, n, -, rfl, rfl⟩ | ⟨other, -, -, rfl | ⟨htruncate, -⟩⟩
  · exact h.addNode _ _
  · exact h
  · cases htruncate

theorem HasFile.openLog_refill (h : d.HasFile id) :
    (d.refill id mode bytes).openLog p = ((d.openLog p).1, (d.openLog p).2.refill id mode bytes) := by
  have hopen {made : Disk} (hmade : made.HasFile id) :
      (made.refill id mode bytes).openWrite p { truncate := false, mode := privateFileMode } =
        (made.openWrite p { truncate := false, mode := privateFileMode }).map fun opened =>
          (opened.1, opened.2.refill id mode bytes) := hmade.openWrite_refill privateFileMode
  unfold openLog
  cases p.parent? with
  | none =>
    simp only [hopen h]
    cases d.openWrite p { truncate := false, mode := privateFileMode } <;> rfl
  | some parent =>
    have hmade := h.makeFoldersFrom parent.ancestors
    simp only [makeFolders, h.makeFoldersFrom_refill, hopen hmade]
    cases (d.makeFoldersFrom parent.ancestors).2.openWrite p { truncate := false, mode := privateFileMode } <;> rfl

theorem HasFile.openLog (h : d.HasFile id) (p : Path) : (d.openLog p).2.HasFile id := by
  obtain ⟨made, hmade, hopen⟩ := openLog_cases d p
  have hfile : made.HasFile id := by
    rcases hmade with rfl | ⟨parent, -, rfl⟩
    · exact h
    · exact h.makeFoldersFrom parent.ancestors
  rcases hopen with ⟨place, ho, -⟩ | ⟨hsame, -⟩
  · exact hfile.openWrite ho
  · rwa [hsame]

end Disk

end SafeFiles
