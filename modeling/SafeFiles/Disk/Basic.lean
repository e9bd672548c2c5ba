import SafeFiles.Path.Basic
import SafeFiles.Table

/-!
# The disk

A disk maps places to items. An item is a folder or a leaf; a leaf only names a
node, and the node holds the content, so two leaves with one node are hard links
of one file. The order in which items are kept is the order in which folders are
listed, and every order is possible.
-/

namespace SafeFiles

/-- Permission bits. -/
abbrev Mode := Nat

abbrev NodeId := Nat

inductive Device where
  | null
  | full
  | zero
  deriving DecidableEq, Repr

/-- A kernel record is a file that the system makes up as it is read; its length reads as zero. -/
inductive Node where
  | file (mode : Mode) (bytes : Bytes)
  | link (target : Path)
  | device (device : Device)
  | kernel (mode : Mode) (bytes : Bytes)
  deriving DecidableEq, Repr

inductive Item where
  | folder (mode : Mode)
  | leaf (id : NodeId)
  deriving DecidableEq, Repr

structure Disk where
  items : Table Place Item
  nodes : Table NodeId Node
  cwd : Place
  deriving DecidableEq, Repr

namespace Node

/-- A kernel record stays where it is. -/
def isFixed : Node → Bool
  | .kernel _ _ => true
  | _ => false

/-- A regular file, as the system reports it. -/
def isFile : Node → Bool
  | .file _ _ | .kernel _ _ => true
  | _ => false

def isLink : Node → Bool
  | .link _ => true
  | _ => false

def mode : Node → Mode
  | .file mode _ | .kernel mode _ => mode
  | .link _ => 0o777
  | .device _ => 0o666

/-- The reported length. -/
def size : Node → Nat
  | .file _ bytes => bytes.length
  | .link target => Text.utf8Size target
  | .device _ | .kernel _ _ => 0

end Node

namespace Disk

def rootMode : Mode := 0o755

/-- The root is always a folder. -/
def item? (d : Disk) : Place → Option Item
  | [] => some (.folder rootMode)
  | place => d.items.get? place

/-- Ids without a node read as an empty file. -/
def node (d : Disk) (id : NodeId) : Node :=
  (d.nodes.get? id).getD (.file 0o644 [])

def node? (d : Disk) (place : Place) : Option Node :=
  match d.item? place with
  | some (.leaf id) => some (d.node id)
  | _ => none

def isFolderAt (d : Disk) (place : Place) : Bool :=
  match d.item? place with
  | some (.folder _) => true
  | _ => false

def setItem (d : Disk) (place : Place) (item : Item) : Disk :=
  { d with items := d.items.set place item }

def eraseItem (d : Disk) (place : Place) : Disk :=
  { d with items := d.items.erase place }

def setNode (d : Disk) (id : NodeId) (node : Node) : Disk :=
  { d with nodes := d.nodes.set id node }

def leafIds (d : Disk) : List NodeId :=
  d.items.filterMap fun entry => match entry.2 with
    | .leaf id => some id
    | .folder _ => none

/-- An id that no leaf uses and that has no node. -/
def freshId (d : Disk) : NodeId :=
  (d.leafIds ++ d.nodes.keys).foldl max 0 + 1

/-- Put a new node with a new leaf at a place. -/
def addNode (d : Disk) (place : Place) (node : Node) : Disk :=
  (d.setNode d.freshId node).setItem place (.leaf d.freshId)

def nameUnder? (folder place : Place) : Option Name :=
  if place.dropLast = folder then place.getLast? else none

/-- The names in a folder, in listing order. -/
def names (d : Disk) (folder : Place) : List Name :=
  (d.items.keys.filterMap (nameUnder? folder)).eraseDups

/-- Where a place is found after the item at `src` has become the item at `dst`. -/
def movedPlace (src dst place : Place) : Place :=
  if src.isPrefixOf place then dst ++ place.drop src.length else place

/-- Move the item at `src`, and whatever lies below it, to `dst`. The working folder moves along, unless
it has been removed. -/
def moveItems (d : Disk) (src dst : Place) : Disk :=
  let kept := d.items.filter fun entry => !(dst.isPrefixOf entry.1)
  { d with
    items := kept.map fun entry => (movedPlace src dst entry.1, entry.2)
    cwd := if d.isFolderAt d.cwd then movedPlace src dst d.cwd else d.cwd }

theorem item?_setItem (d : Disk) (place other : Place) (item : Item) (h : place ≠ []) :
    (d.setItem place item).item? other = if place = other then some item else d.item? other := by
  cases other with
  | nil => simp [item?, h]
  | cons n rest => simp [item?, setItem, Table.get?_set]

theorem item?_eraseItem (d : Disk) (place other : Place) (h : place ≠ []) :
    (d.eraseItem place).item? other = if place = other then none else d.item? other := by
  cases other with
  | nil => simp [item?, h]
  | cons n rest => simp [item?, eraseItem, Table.get?_erase]

theorem item?_setNode (d : Disk) (id : NodeId) (node : Node) (place : Place) :
    (d.setNode id node).item? place = d.item? place := by
  cases place <;> rfl

theorem node_setNode (d : Disk) (id other : NodeId) (node : Node) :
    (d.setNode id node).node other = if id = other then node else d.node other := by
  simp only [Disk.node, setNode, Table.get?_set]
  split <;> simp

theorem node_setItem (d : Disk) (place : Place) (item : Item) (id : NodeId) :
    (d.setItem place item).node id = d.node id := rfl

theorem le_foldl_max (ids : List Nat) (start : Nat) :
    start ≤ ids.foldl max start ∧ ∀ id ∈ ids, id ≤ ids.foldl max start := by
  induction ids generalizing start with
  | nil => simp
  | cons first rest ih =>
    obtain ⟨h, hs⟩ := ih (max start first)
    refine ⟨by simp only [List.foldl_cons]; omega, fun id hid => ?_⟩
    rcases List.mem_cons.1 hid with rfl | hid
    · simp only [List.foldl_cons]; omega
    · exact hs id hid

theorem mem_leafIds {d : Disk} {place : Place} {id : NodeId}
    (h : d.items.get? place = some (.leaf id)) : id ∈ d.leafIds := by
  unfold leafIds
  generalize d.items = items at h ⊢
  induction items with
  | nil => simp [Table.get?] at h
  | cons entry rest ih =>
    obtain ⟨k, v⟩ := entry
    simp only [Table.get?] at h
    by_cases hk : k = place
    · simp only [hk, if_true, Option.some.injEq] at h
      subst h
      simp
    · simp only [hk, if_false] at h
      have := ih h
      cases v <;> simp_all

theorem ne_freshId {d : Disk} {place : Place} {id : NodeId}
    (h : d.items.get? place = some (.leaf id)) : id ≠ d.freshId := by
  have hle : id ≤ (d.leafIds ++ d.nodes.keys).foldl max 0 :=
    (le_foldl_max (d.leafIds ++ d.nodes.keys) 0).2 id (by simp [mem_leafIds h])
  intro he
  exact Nat.not_succ_le_self _ (he ▸ hle : d.freshId ≤ _)

theorem mem_names_iff (d : Disk) (folder : Place) (name : Name) :
    name ∈ d.names folder ↔ (d.item? (folder ++ [name])).isSome := by
  have hne : folder ++ [name] ≠ [] := by simp
  have hget : d.item? (folder ++ [name]) = d.items.get? (folder ++ [name]) := by
    cases h : folder ++ [name] with
    | nil => exact absurd h hne
    | cons n rest => rfl
  rw [hget, ← Table.mem_keys_iff]
  simp only [names, List.mem_eraseDups, List.mem_filterMap, nameUnder?]
  constructor
  · rintro ⟨place, hmem, hplace⟩
    split at hplace
    · next hdrop =>
      have : place = place.dropLast ++ [name] := by
        obtain ⟨hne', hlast⟩ := List.getLast?_eq_some_iff.1 hplace
        simp [hlast]
      rw [this, hdrop] at hmem
      exact hmem
    · exact absurd hplace (by simp)
  · intro hmem
    exact ⟨folder ++ [name], hmem, by simp⟩

end Disk

end SafeFiles
