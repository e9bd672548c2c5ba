import SafeFiles.Proofs.Disk.KeptLaws
import SafeFiles.Proofs.TempLaws

/-!
# What a copy of a file leaves

A copy opens its target, and so empties it, before it reads anything. If that is
another file than the source, all that is asked for arrives there and nothing else
changes (`Filled`, `copy_transfers`). If both are one file, under whatever names,
nothing is left to read: a copy keeps its source exactly if the two are not one
file, or if nothing was in it (`copy_keeps_source_iff`).
-/

namespace SafeFiles

/-- As many bytes as the length says. A device or a kernel record reports none. -/
def Node.copiedBytes : Node → Bytes
  | .file _ bytes => bytes
  | _ => []

namespace Disk

variable {d d' : Disk} {src dst : Path} {source target place q folder : Place} {bytes : Bytes} {n : Name}
  {node : Node} {id : NodeId} {amount : Nat} {durability : Durability} {turns : Turns}

/-- A regular file with these bytes stands at `place`. -/
def FileAt (d : Disk) (place : Place) (bytes : Bytes) : Prop :=
  ∃ mode, d.node? place = some (.file mode bytes) ∨ d.node? place = some (.kernel mode bytes)

/-- Opened for writing, `dst` gives the file at `target`, which may have to be made. -/
inductive Receives (d : Disk) (dst : Path) : Place → Prop
  | free {folder : Place} {n : Name} : d.locate .create dst = .ok (.free folder n) → Receives d dst (folder ++ [n])
  | file {target : Place} {mode : Mode} {bytes : Bytes} : d.locate .create dst = .ok (.found target) →
      d.node? target = some (.file mode bytes) → Receives d dst target

def modeOver (d : Disk) (place : Place) : Mode :=
  if (d.item? place).isSome then d.modeAt place else newFileMode

/-- The file at `target` has been made or overwritten, and no other file has changed. -/
structure Filled (d : Disk) (target : Place) (bytes : Bytes) (d' : Disk) : Prop where
  items : ∀ q, q ≠ target ∨ (d.item? q).isSome → d'.item? q = d.item? q
  content : d'.node? target = some (.file (d.modeOver target) bytes)
  apart : ∀ q, d.item? q ≠ d.item? target → d'.item? q ≠ d'.item? target
  nodes : ∀ q, d.item? q ≠ d.item? target → d'.node? q = d.node? q
  cwd : d'.cwd = d.cwd

-- ---------------------------------------------------------------------------
-- Files with other bytes
-- ---------------------------------------------------------------------------

theorem node?_setNode_self (h : d.item? q = some (.leaf id)) (node : Node) :
    (d.setNode id node).node? q = some node := by
  rw [node?_of_leaf (by rwa [item?_setNode]), node_setNode, if_pos rfl]

theorem node?_setNode_of_ne (h : d.item? q ≠ some (.leaf id)) (node : Node) :
    (d.setNode id node).node? q = d.node? q := by
  unfold node?
  rw [item?_setNode]
  split
  · rename_i other hi
    have hne : id ≠ other := by
      rintro rfl
      exact h hi
    rw [node_setNode, if_neg hne]
  · rfl

theorem filled_addNode (hfree : d.item? (folder ++ [n]) = none) :
    d.Filled (folder ++ [n]) [] (d.addNode (folder ++ [n]) (.file newFileMode [])) := by
  have hitem (q : Place) : (d.addNode (folder ++ [n]) (.file newFileMode [])).item? q =
      if folder ++ [n] = q then some (.leaf d.freshId) else d.item? q := item?_addNode d _ q (by simp)
  have hplace : (d.addNode (folder ++ [n]) (.file newFileMode [])).item? (folder ++ [n]) =
      some (.leaf d.freshId) := by
    rw [hitem, if_pos rfl]
  refine ⟨fun q hq => ?_, ?_, fun q hq => ?_, fun q hq => ?_, rfl⟩
  · rw [hitem, if_neg]
    rintro rfl
    simp [hfree] at hq
  · rw [node?_of_leaf hplace, node_addNode, if_pos rfl]
    simp [modeOver, hfree]
  · have hne : folder ++ [n] ≠ q := fun heq => hq (heq ▸ rfl)
    rw [hplace, hitem, if_neg hne]
    exact fun h => ne_freshId_of_item h rfl
  · obtain ⟨item, hi⟩ := Option.ne_none_iff_exists'.mp (hfree ▸ hq)
    exact ((within_addNode _ (by simp) hfree).sameAt hi).2

theorem Filled.setNode {old : Bytes} (h : d.Filled target old d') (hi : d'.item? target = some (.leaf id))
    (bytes : Bytes) : d.Filled target bytes (d'.setNode id (.file (d.modeOver target) bytes)) where
  items q hq := by rw [item?_setNode, h.items q hq]
  content := node?_setNode_self hi _
  apart q hq := by
    rw [item?_setNode, item?_setNode]
    exact h.apart q hq
  nodes q hq := by rw [node?_setNode_of_ne (hi ▸ h.apart q hq), h.nodes q hq]
  cwd := h.cwd

theorem Filled.append (h : d.Filled target [] d') (bytes : Bytes) :
    ∃ after, d'.append target bytes = .ok after ∧ d.Filled target bytes after := by
  obtain ⟨id, hi, hfile⟩ := leaf_of_node? h.content
  exact ⟨_, by simp [Disk.append, hi, hfile], h.setNode hi bytes⟩

theorem Receives.open (h : d.Receives dst target) :
    ∃ opened, d.openWrite dst { truncate := true } = .ok (target, opened) ∧ d.Filled target [] opened := by
  cases h with
  | free hl =>
    obtain ⟨-, hend⟩ := locate_free hl
    exact ⟨_, bind_eq_ok.mpr ⟨_, hl, rfl⟩, filled_addNode hend.free⟩
  | @file _ mode bytes hl hnode =>
    obtain ⟨id, hi, hfile⟩ := leaf_of_node? hnode
    have hmode : d.modeOver target = mode := by simp [modeOver, modeAt, hi, hfile, Node.mode]
    have hself : d.Filled target bytes d :=
      ⟨fun _ _ => rfl, hmode ▸ hnode, fun _ hq => hq, fun _ _ => rfl, rfl⟩
    exact ⟨_, bind_eq_ok.mpr ⟨_, hl, by simp [hi, hfile, hmode]⟩, hself.setNode hi []⟩

theorem Receives.leaf (h : d.Receives dst target) (hi : (d.item? target).isSome) :
    ∃ id, d.item? target = some (.leaf id) := by
  cases h with
  | free hl => simp [(locate_free hl).2.free] at hi
  | file _ hnode =>
    obtain ⟨id, hleaf, -⟩ := leaf_of_node? hnode
    exact ⟨id, hleaf⟩

-- ---------------------------------------------------------------------------
-- One copy
-- ---------------------------------------------------------------------------

/-- The target is emptied, and what the source holds then is what arrives. -/
theorem Receives.copyPrefix (h : d.Receives dst target) (hstat : d.stat src = .ok source) (amount : Nat)
    (durability : Durability) (turns : Turns) : ∃ opened, d.Filled target [] opened ∧
      (d.copyPrefix src amount dst durability turns).1 = ((opened.sourceAt source).take amount).length ∧
      d.Filled target ((opened.sourceAt source).take amount) (d.copyPrefix src amount dst durability turns).2 := by
  obtain ⟨opened, hopen, ho⟩ := h.open
  obtain ⟨after, happend, ha⟩ := ho.append ((opened.sourceAt source).take amount)
  have hcopy : d.copyPrefix src amount dst durability turns =
      (((opened.sourceAt source).take amount).length, after) := by
    simp only [Disk.copyPrefix, hstat, hopen, transferred_eq_take, happend, flush_eq]
  rw [hcopy]
  exact ⟨opened, ho, rfl, ha⟩

theorem openWrite_idle (h : ∀ target, ¬ d.Receives dst target)
    (ho : d.openWrite dst { truncate := true } = .ok (place, d')) :
    d' = d ∧ ∀ bytes after, d'.append place bytes = .ok after → after = d := by
  rcases openWrite_ok ho with ⟨folder, n, hl, -, -⟩ | ⟨id, hl, hi, hcase⟩
  · exact absurd (.free hl) (h _)
  · have hleaf (mode : Mode) (old : Bytes) : d.node id ≠ .file mode old :=
      fun hnode => h place (.file hl (by rw [node?_of_leaf hi, hnode]))
    rcases hcase with rfl | ⟨-, mode, old, hnode, -⟩
    · refine ⟨rfl, fun bytes after ha => ?_⟩
      obtain ⟨id', hi', rfl | ⟨mode, old, hnode, -⟩⟩ := append_ok ha
      · rfl
      · cases hi.symm.trans hi'
        exact absurd hnode (hleaf mode old)
    · exact absurd hnode (hleaf mode old)

theorem copyPrefix_idle (h : ∀ target, ¬ d.Receives dst target) (src : Path) (amount : Nat)
    (durability : Durability) (turns : Turns) : (d.copyPrefix src amount dst durability turns).2 = d :=
  copyPrefix_keeps (P := fun d' => d' = d) (fun _ _ ho => openWrite_idle h ho) rfl

theorem copyFile_idle (h : ∀ target, ¬ d.Receives dst target) (src : Path) (durability : Durability)
    (turns : Turns) : (d.copyFile src dst durability turns).2 = d :=
  copyFile_keeps (P := fun d' => d' = d) (fun _ _ ho => openWrite_idle h ho) rfl

theorem copyFile_eq (hstat : d.stat src = .ok source) (dst : Path) (durability : Durability) (turns : Turns) :
    d.copyFile src dst durability turns =
      (decide ((d.copyPrefix src (d.sizeAt source) dst durability turns).1 = d.sizeAt source),
        (d.copyPrefix src (d.sizeAt source) dst durability turns).2) := by
  simp [copyFile, Disk.size, hstat, Except.map]

theorem take_sizeAt (hsource : d.node? source = some node) (hlink : node.isLink = false) :
    (d.sourceAt source).take (d.sizeAt source) = node.copiedBytes := by
  rw [sourceAt, sizeAt, hsource]
  cases node with
  | file mode bytes => exact List.take_length
  | link target => cases hlink
  | device device => cases device <;> rfl
  | kernel mode bytes => rfl

theorem Receives.copyFile (h : d.Receives dst target) (hstat : d.stat src = .ok source)
    (hsource : d.node? source = some node) (hlink : node.isLink = false) (hother : d.item? source ≠ d.item? target)
    (durability : Durability) (turns : Turns) :
    (d.copyFile src dst durability turns).1 = true ∧
      d.Filled target node.copiedBytes (d.copyFile src dst durability turns).2 := by
  obtain ⟨opened, hopened, hcount, hfilled⟩ := h.copyPrefix hstat (d.sizeAt source) durability turns
  have hnode : opened.sourceAt source = d.sourceAt source := by
    rw [sourceAt, sourceAt, hopened.nodes source hother]
  rw [hnode, take_sizeAt hsource hlink] at hcount hfilled
  have hlength : node.copiedBytes.length = d.sizeAt source := by
    rw [sizeAt, hsource]
    cases node with
    | link target => cases hlink
    | _ => rfl
  rw [copyFile_eq hstat]
  exact ⟨decide_eq_true (hcount.trans hlength), hfilled⟩

-- ---------------------------------------------------------------------------
-- Paths after a copy
-- ---------------------------------------------------------------------------

theorem copyPrefix_kept (d : Disk) (src dst : Path) (amount : Nat) (durability : Durability) (turns : Turns) :
    d.Kept (d.copyPrefix src amount dst durability turns).2 := by
  refine copyPrefix_keeps (fun place opened ho => ?_) (Within.refl _).kept
  have hk := kept_openWrite ho
  exact ⟨hk, fun bytes after ha => hk.trans (kept_append ha)⟩

theorem Receives.stat (h : d.Receives dst target) (hk : d.Kept d') (hf : d.Filled target bytes d') :
    d'.stat dst = .ok target := by
  obtain ⟨id, hi, hfile⟩ := leaf_of_node? hf.content
  cases h with
  | free hl =>
    obtain ⟨_, hc, hw⟩ := bind_eq_ok.mp hl
    refine seek_ok.mpr ⟨hc, ?_, by simp [hi]⟩
    rw [Within.start hf.cwd]
    exact route_of_walk_free hk hi (by simp [hfile, Node.isLink]) (mapError_ok_iff.mp hw)
  | file hl _ =>
    obtain ⟨hc, hr⟩ := locate_found.mp hl
    refine seek_ok.mpr ⟨hc, ?_, by simp [hi]⟩
    rw [Within.start hf.cwd]
    exact hr.follow_of_create.kept hk

theorem Receives.read (h : d.Receives dst target) (hk : d.Kept d') (hf : d.Filled target bytes d') :
    d'.read dst = .ok bytes :=
  bind_eq_ok.mpr ⟨target, h.stat hk hf, by simp [Disk.sourceAt, hf.content]⟩

theorem Kept.read (h : d.Kept d') (hcwd : d'.cwd = d.cwd) (hstat : d.stat src = .ok source)
    (hbytes : d'.sourceAt source = .data bytes) : d'.read src = .ok bytes :=
  bind_eq_ok.mpr ⟨source, h.seek hcwd hstat, by simp [hbytes]⟩

theorem FileAt.sourceAt (h : d.FileAt source bytes) : d.sourceAt source = .data bytes := by
  obtain ⟨mode, hnode | hnode⟩ := h <;> simp [Disk.sourceAt, hnode]

/-- After a copy to another file the target holds the bytes, source and target are read as they should, and
no other file has changed. -/
structure Arrives (d : Disk) (src dst : Path) (target : Place) (bytes moved : Bytes) (d' : Disk) : Prop
    extends Filled d target moved d' where
  source : d'.read src = .ok bytes
  target : d'.read dst = .ok moved

theorem Receives.arrives (h : d.Receives dst target) (hstat : d.stat src = .ok source)
    (hbytes : d.FileAt source bytes) (hother : d.item? source ≠ d.item? target) (amount : Nat)
    (durability : Durability) (turns : Turns) :
    (d.copyPrefix src amount dst durability turns).1 = min amount bytes.length ∧
      d.Arrives src dst target bytes (bytes.take amount) (d.copyPrefix src amount dst durability turns).2 := by
  obtain ⟨opened, hopened, hcount, hfilled⟩ := h.copyPrefix hstat amount durability turns
  have hkept := d.copyPrefix_kept src dst amount durability turns
  have hsource {d' : Disk} {old : Bytes} (hf : d.Filled target old d') : d'.sourceAt source = .data bytes := by
    rw [← hbytes.sourceAt, Disk.sourceAt, Disk.sourceAt, hf.nodes source hother]
  rw [hsource hopened] at hcount hfilled
  exact ⟨by rw [hcount, Source.take, List.length_take], hfilled,
    hkept.read hfilled.cwd hstat (hsource hfilled), h.read hkept hfilled⟩

def aliases : Disk where
  items := [([['a']], .leaf 0), ([['b']], .leaf 0), ([['l']], .leaf 1), ([['k']], .leaf 2), ([['m']], .leaf 3)]
  nodes := [(0, .file 0o644 [1, 2, 3]), (1, .link ['a']), (2, .kernel 0o444 [7]), (3, .link ['n'])]
  cwd := []

/-- Opened for writing, `dst` gives the very file at `source`, by the same name or another. -/
def Overwrites (d : Disk) (dst : Path) (source : Place) : Prop :=
  ∃ target, d.Receives dst target ∧ d.item? target = d.item? source

/-- What is written to one name of a file is read by the other. -/
theorem Filled.of_same (h : d.Filled target bytes d') (hsource : (d.item? source).isSome)
    (hsame : d.item? target = d.item? source) : d'.sourceAt source = .data bytes := by
  have hitem : d'.item? source = d'.item? target := by
    rw [h.items source (.inr hsource), h.items target (.inr (hsame ▸ hsource)), hsame]
  have hnode' : d'.node? source = d'.node? target := by rw [node?, node?, hitem]
  simp [sourceAt, hnode', h.content]

theorem Overwrites.read (h : d.Overwrites dst source) (hstat : d.stat src = .ok source) (amount : Nat)
    (durability : Durability) (turns : Turns) :
    (d.copyPrefix src amount dst durability turns).2.read src = .ok [] := by
  obtain ⟨target, hdst, hsame⟩ := h
  have hsource := (seek_ok.mp hstat).2.2
  obtain ⟨opened, hopened, -, hfilled⟩ := hdst.copyPrefix hstat amount durability turns
  rw [hopened.of_same hsource hsame] at hfilled
  refine (d.copyPrefix_kept src dst amount durability turns).read hfilled.cwd hstat ?_
  rw [hfilled.of_same hsource hsame, Source.take, List.take_nil]

/-- A copy keeps what its source holds exactly if the target is not that file, or if nothing was in it. -/
theorem copy_keeps_source_iff (d : Disk) (src dst : Path) (durability : Durability) (turns : Turns)
    (hstat : d.stat src = .ok source) (hbytes : d.FileAt source bytes) :
    (∀ amount, (d.copyPrefix src amount dst durability turns).2.read src = .ok bytes ↔
      bytes = [] ∨ ¬ d.Overwrites dst source) ∧
    ((d.copyFile src dst durability turns).2.read src = .ok bytes ↔ bytes = [] ∨ ¬ d.Overwrites dst source) := by
  have hkeeps (amount : Nat) : (d.copyPrefix src amount dst durability turns).2.read src = .ok bytes ↔
      bytes = [] ∨ ¬ d.Overwrites dst source := by
    by_cases hover : d.Overwrites dst source
    · rw [hover.read hstat amount durability turns, Except.ok.injEq, eq_comm]
      exact ⟨.inl, fun h => h.resolve_right (fun hnot => hnot hover)⟩
    · refine ⟨fun _ => .inr hover, fun _ => ?_⟩
      by_cases hdst : ∃ target, d.Receives dst target
      · obtain ⟨target, hdst⟩ := hdst
        have hother : d.item? source ≠ d.item? target := fun heq => hover ⟨target, hdst, heq.symm⟩
        exact (hdst.arrives hstat hbytes hother amount durability turns).2.source
      · rw [copyPrefix_idle (not_exists.mp hdst)]
        exact (Within.refl d).kept.read rfl hstat hbytes.sourceAt
  refine ⟨hkeeps, ?_⟩
  rw [copyFile_eq hstat]
  exact hkeeps _

theorem aliases_kept : ¬ aliases.Overwrites ['m'] [['a']] ∧
    (aliases.copyFile ['a'] ['m'] .data).2.read ['a'] = .ok [1, 2, 3] := by
  have hfree : aliases.locate .create ['m'] = .ok (.free [] ['n']) := by decide
  have hother : ¬ aliases.Overwrites ['m'] [['a']] := by
    rintro ⟨target, hdst, hsame⟩
    cases hdst with
    | free hl =>
      cases hfree.symm.trans hl
      exact absurd hsame (by decide)
    | file hl _ => cases hfree.symm.trans hl
  have hbytes : aliases.FileAt [['a']] [1, 2, 3] := ⟨0o644, .inl (by decide)⟩
  obtain ⟨-, hkeeps⟩ := copy_keeps_source_iff aliases ['a'] ['m'] .data {} (by decide) hbytes
  exact ⟨hother, hkeeps.mpr (.inr hother)⟩

/-- Copied to its own name, to another name of it or over a link to it, a file is empty. -/
theorem copy_empties_source : aliases.read ['a'] = .ok [1, 2, 3] ∧
    (aliases.copyFile ['a'] ['a'] .full).2.read ['a'] = .ok [] ∧
    (aliases.copyPrefix ['a'] 2 ['b'] .full).2.read ['a'] = .ok [] ∧
    (aliases.copyFile ['a'] ['l'] .full).2.read ['a'] = .ok [] := by
  decide

end Disk

end SafeFiles
