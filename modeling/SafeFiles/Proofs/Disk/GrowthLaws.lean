import SafeFiles.Copy
import SafeFiles.Proofs.Disk.EntryLaws

/-!
# Disks that grow

Making a folder or a file adds one entry and takes none away. `Grown` says so of
any number of steps: all that is new stands at or below one place, none of it is
a link, and it shares no node with what was there. The lemmas read the success of
the calls that make something as the entry that they add.
-/

namespace SafeFiles

namespace Disk

/-- All that `d'` has over `d` stands at or below `root`. -/
structure Grown (root : Place) (d d' : Disk) : Prop where
  within : d.Within d'
  tree : d'.WellFormed
  cwd : d'.cwd = d.cwd
  added : ∀ {q item}, d'.item? q = some item → d.item? q = none → root <+: q ∧ d'.isLinkAt q = false
  fresh : ∀ {q q' id}, d'.item? q = some (.leaf id) → d.item? q = none → d.item? q' ≠ some (.leaf id)

variable {d d' d'' : Disk} {root above place q folder here : Place} {n : Name} {item : Item} {id : NodeId}
  {mode : Mode} {bytes : Bytes} {p : Path} {final : Final} {links : Nat} {steps before : List Step}

-- ---------------------------------------------------------------------------
-- Growth
-- ---------------------------------------------------------------------------

theorem leaf_of_link (h : d.isLinkAt q) : ∃ id, d.item? q = some (.leaf id) := by
  obtain ⟨node, hnode, -⟩ := (Option.any_eq_true _ _).mp h
  obtain ⟨id, hi, -⟩ := leaf_of_node? hnode
  exact ⟨id, hi⟩

theorem SameAt.isLinkAt (h : d.SameAt d' q) : d'.isLinkAt q = d.isLinkAt q := by
  rw [Disk.isLinkAt, Disk.isLinkAt, h.2]

theorem Grown.refl (hd : d.WellFormed) (root : Place) : Grown root d d where
  within := .refl d
  tree := hd
  cwd := rfl
  added hi hn := by simp [hi] at hn
  fresh hi hn := by simp [hi] at hn

theorem Grown.trans (h : Grown root d d') (h' : Grown place d' d'') (hp : root <+: place) :
    Grown root d d'' where
  within := h.within.trans h'.within
  tree := h'.tree
  cwd := h'.cwd.trans h.cwd
  added {q item} hi hn := by
    cases hq : d'.item? q with
    | none =>
      obtain ⟨hplace, hlink⟩ := h'.added hi hq
      exact ⟨hp.trans hplace, hlink⟩
    | some item' =>
      obtain ⟨hroot, hlink⟩ := h.added hq hn
      exact ⟨hroot, by rw [(h'.within.sameAt hq).isLinkAt, hlink]⟩
  fresh {q q' id} hi hn hq' := by
    cases hq : d'.item? q with
    | none => exact h'.fresh hi hq (h.within.item hq')
    | some item' =>
      rw [h'.within.item hq] at hi
      cases hi
      exact h.fresh hq hn hq'

theorem Grown.mono (h : Grown root d d') (ha : above <+: root) : Grown above d d' :=
  { h with added := fun hi hn => (h.added hi hn).imp ha.trans id }

theorem Grown.link_before (h : Grown root d d') (hlink : d'.isLinkAt q) : d.isLinkAt q := by
  rcases h.within.sameAt_or_new q with hsame | ⟨hnone, item, hi⟩
  · rwa [hsame.isLinkAt] at hlink
  · simp [(h.added hi hnone).2] at hlink

theorem Grown.sameAt (h : Grown root d d') (hq : ¬ root <+: q) : d.SameAt d' q :=
  (h.within.sameAt_or_new q).resolve_right fun ⟨hnone, _, hi⟩ => hq (h.added hi hnone).1

theorem Grown.of_entry (hw : d.Within d') (hd' : d'.WellFormed) (hcwd : d'.cwd = d.cwd)
    (hitem : ∀ q, d'.item? q = if place = q then some item else d.item? q) (hlink : d'.isLinkAt place = false)
    (hfresh : ∀ {id q}, item = .leaf id → d.item? q ≠ some (.leaf id)) : Grown place d d' where
  within := hw
  tree := hd'
  cwd := hcwd
  added {q _} hi hq := by
    rw [hitem] at hi
    split at hi
    · rename_i heq
      exact heq ▸ ⟨List.prefix_rfl, hlink⟩
    · simp [hq] at hi
  fresh {q _ _} hi hq := by
    rw [hitem] at hi
    split at hi
    · cases hi
      exact hfresh rfl
    · simp [hq] at hi

theorem Grown.setFolder (hd : d.WellFormed) (hf : d.isFolderAt folder) (hn : n.CanStand)
    (h : d.item? (folder ++ [n]) = none) (mode : Mode) :
    Grown (folder ++ [n]) d (d.setItem (folder ++ [n]) (.folder mode)) := by
  refine .of_entry (within_setItem _ (by simp) h) (hd.setItem _ hf hn h) rfl
    (fun q => item?_setItem _ _ q _ (by simp)) ?_ fun hleaf => by cases hleaf
  simp [isLinkAt, node?, item?_setItem]

theorem Grown.addFile (hd : d.WellFormed) (hf : d.isFolderAt folder) (hn : n.CanStand)
    (h : d.item? (folder ++ [n]) = none) (mode : Mode) (bytes : Bytes) :
    Grown (folder ++ [n]) d (d.addNode (folder ++ [n]) (.file mode bytes)) := by
  refine .of_entry (within_addNode _ (by simp) h) (hd.addNode _ hf hn h) rfl
    (fun q => item?_addNode _ _ q (by simp)) ?_ fun hleaf hold => ?_
  · simp [isLinkAt, node?, item?_addNode, node_addNode, Node.isLink]
  · cases hleaf
    exact ne_freshId_of_item hold rfl

theorem Grown.setNode (h : Grown root d d') (hi : d'.item? q = some (.leaf id)) (hq : d.item? q = none)
    (mode : Mode) (bytes : Bytes) : Grown root d (d'.setNode id (.file mode bytes)) where
  within := by
    refine ⟨fun hitem => by rw [item?_setNode, h.within.item hitem], fun {_ kept} hleaf => ?_⟩
    have hne : id ≠ kept := by
      rintro rfl
      exact h.fresh hi hq hleaf
    rw [node_setNode, if_neg hne, h.within.node hleaf]
  tree := h.tree.of_item? fun q => item?_setNode d' id _ q
  cwd := h.cwd
  added {q' item} hi' hn := by
    rw [item?_setNode] at hi'
    obtain ⟨hroot, hlink⟩ := h.added hi' hn
    refine ⟨hroot, ?_⟩
    cases item with
    | folder mode => simp [isLinkAt, node?, item?_setNode, hi']
    | leaf id' =>
      by_cases hid : id = id'
      · simp [isLinkAt, node?, item?_setNode, hi', node_setNode, hid, Node.isLink]
      · simpa [isLinkAt, node?, item?_setNode, hi', node_setNode, hid] using hlink
  fresh {q' _ _} hi' hn := by
    rw [item?_setNode] at hi'
    exact h.fresh hi' hn

-- ---------------------------------------------------------------------------
-- New folders
-- ---------------------------------------------------------------------------

theorem makeFolder_ok : d.makeFolder p = .ok d' ↔ ∃ folder n slash,
    d.folderOf p = .ok (folder, .name n slash) ∧ Text.utf8Size n ≤ nameLimit ∧
      d.item? (folder ++ [n]) = none ∧ d' = d.setItem (folder ++ [n]) (.folder newFolderMode) := by
  simp only [makeFolder, vacancy, bind_eq_ok]
  constructor
  · rintro ⟨⟨folder, n⟩, ⟨⟨above, last⟩, hf, h⟩, hd'⟩
    cases last with
    | name m slash =>
      simp only [bind_eq_ok] at h
      obtain ⟨item, hc, h⟩ := h
      obtain ⟨hm, hi⟩ := child_ok.mp hc
      cases item with
      | some _ => cases h
      | none =>
        simp only [Bool.not_true, Bool.false_eq_true, and_false, if_false, Except.ok.injEq,
          Prod.mk.injEq] at h
        obtain ⟨rfl, rfl⟩ := h
        cases hd'
        exact ⟨above, m, slash, hf, hm, hi, rfl⟩
    | _ => cases h
  · rintro ⟨folder, n, slash, hf, hn, hi, rfl⟩
    exact ⟨(folder, n), ⟨_, hf, bind_eq_ok.mpr ⟨none, child_ok.mpr ⟨hn, hi⟩, by simp⟩⟩, rfl⟩

/-- What holds of a disk, and still holds once any of the folders has been made, holds at the end. -/
theorem makeFoldersFrom_keeps {P : Disk → Prop} {paths : List Path}
    (hmake : ∀ a ∈ paths, a ≠ [] → ∀ d d', P d → d.makeFolder a = .ok d' → P d') (h : P d) :
    P (d.makeFoldersFrom paths).2 := by
  induction paths with
  | nil => exact h
  | cons a above ih =>
    have habove := ih fun b hb => hmake b (List.mem_cons_of_mem a hb)
    have ha := hmake a List.mem_cons_self
    rw [makeFoldersFrom]
    split
    · exact h
    rename_i hne
    split
    · rename_i made hmade
      exact ha hne _ _ h hmade
    · split
      · split
        · rename_i f after heq
          rw [heq] at habove
          exact habove
        · rename_i after heq
          rw [heq] at habove
          split
          · rename_i made hmade
            exact ha hne _ _ habove hmade
          · split
            · exact habove
            · exact habove
      · split
        · exact h
        · exact h

theorem within_makeFolder (h : d.makeFolder p = .ok d') : d.Within d' := by
  obtain ⟨folder, n, slash, -, -, hi, rfl⟩ := makeFolder_ok.mp h
  exact within_setItem _ (by simp) hi

theorem within_makeFolders (d : Disk) (p : Path) : d.Within (d.makeFolders p).2 :=
  makeFoldersFrom_keeps (fun _ _ _ _ _ hw hm => hw.trans (within_makeFolder hm)) (.refl d)

theorem grown_makeFolders (hd : d.WellFormed) (p : Path) : Grown [] d (d.makeFolders p).2 := by
  refine makeFoldersFrom_keeps (fun a _ _ d' d'' hg hm => ?_) (.refl hd _)
  obtain ⟨folder, n, slash, hf, hn, hi, rfl⟩ := makeFolder_ok.mp hm
  exact hg.trans (.setFolder hg.tree (folderOf_ok.mp hf).2.2.2 ⟨plain_of_folderOf hf, hn⟩ hi _) List.nil_prefix

-- ---------------------------------------------------------------------------
-- Walks to a free name
-- ---------------------------------------------------------------------------

theorem stride_down_free {through : Place → List Step → Except Errno Spot} {rest : List Step} {m : Name} :
    d.stride final through here (.down m :: rest) = .ok (.free folder n) ↔
      ((final = .create → rest ≠ [.slash]) ∧ Text.utf8Size m ≤ nameLimit) ∧
      ((d.item? (here ++ [m]) = none ∧ rest = [] ∧ d.isFolderAt here ∧ here = folder ∧ m = n) ∨
        (∃ mode, d.item? (here ++ [m]) = some (.folder mode) ∧
          d.stride final through (here ++ [m]) rest = .ok (.free folder n)) ∨
        (∃ id target, d.item? (here ++ [m]) = some (.leaf id) ∧ d.node id = .link target ∧
          (rest = [] → final ≠ .look) ∧
          through (if target.isAbsolute then [] else here) (target.steps ++ rest) =
            .ok (.free folder n))) := by
  rw [stride]
  by_cases hc : final = .create ∧ rest = [.slash]
  · simp [hc.1, hc.2]
  by_cases hm : Text.utf8Size m > nameLimit
  · simp [hc, hm, Nat.not_le.mpr hm]
  have hg : (final = .create → rest ≠ [.slash]) ∧ Text.utf8Size m ≤ nameLimit :=
    ⟨fun h h' => hc ⟨h, h'⟩, Nat.not_lt.mp hm⟩
  rw [if_neg hc, if_neg hm, and_iff_right hg]
  cases hi : d.item? (here ++ [m]) with
  | none =>
    simp only
    split
    · rename_i hr
      simp [hr]
    · rename_i hr
      simp only [reduceCtorEq, false_and, exists_false, or_false, true_and, false_iff]
      rintro ⟨hrest, hf, -⟩
      exact hr ⟨hrest, hf⟩
  | some item =>
    cases item with
    | folder mode => simp
    | leaf id =>
      cases hnode : d.node id with
      | link target =>
        by_cases hr : rest = [] ∧ final = .look
        · simp [hr, hnode]
        · have hl : rest = [] → final ≠ .look := fun h h' => hr ⟨h, h'⟩
          simp only [hnode, if_neg hr]
          constructor
          · exact fun h => .inr (.inr ⟨id, target, rfl, hnode, hl, h⟩)
          · rintro (⟨h, _⟩ | ⟨_, h, _⟩ | ⟨_, _, h, ht, -, h'⟩)
            · cases h
            · cases h
            · cases h
              rw [hnode] at ht
              cases ht
              exact h'
      | _ => by_cases hr : rest = [] <;> simp [hr, hnode]

theorem Route.walk_free (h : d.Route .follow links here before folder) (hf : d.isFolderAt folder)
    (hn : Text.utf8Size n ≤ nameLimit) (hi : d.item? (folder ++ [n]) = none) :
    d.walk final links here (before ++ [.down n]) = .ok (.free folder n) := by
  have hcreate (rest : List Step) : final = .create → rest ++ [.down n] ≠ [.slash] := by
    rintro - h
    simpa using congrArg List.getLast? h
  rw [walk_eq_stride]
  induction h with
  | done => exact stride_down_free.mpr ⟨⟨by simp, hn⟩, .inl ⟨hi, rfl, hf, rfl, rfl⟩⟩
  | stay _ ih => exact ih hf hi
  | slash _ ih => exact ih hf hi
  | up _ ih => exact ih hf hi
  | folder _ hm hitem _ ih =>
    exact stride_down_free.mpr ⟨⟨hcreate _, hm⟩, .inr (.inl ⟨_, hitem, ih hf hi⟩)⟩
  | link _ hm hitem hl _ _ ih =>
    refine stride_down_free.mpr ⟨⟨hcreate _, hm⟩, .inr (.inr ⟨_, _, hitem, hl, by simp, ?_⟩)⟩
    rw [beyond, walk_eq_stride]
    simpa using ih hf hi
  | leaf _ hitem _ => simp [isFolderAt, hitem] at hf

/-- All steps but the last go along a route, and the last is the free name, or a link that leads to it. -/
structure EndsFree (d : Disk) (links : Nat) (here : Place) (steps : List Step) (folder : Place) (n : Name) :
    Prop where
  isFolder : d.isFolderAt folder
  free : d.item? (folder ++ [n]) = none
  size : Text.utf8Size n ≤ nameLimit
  last : ∃ before m mid, steps = before ++ [.down m] ∧ d.Route .follow links here before mid ∧
    (mid = folder ∧ m = n ∨ d.isLinkAt (mid ++ [m]))

theorem EndsFree.cons {step : Step} {rest : List Step} {next : Place} (h : d.EndsFree links next rest folder n)
    (hr : ∀ {before mid}, d.Route .follow links next before mid →
      d.Route .follow links here (step :: before) mid) :
    d.EndsFree links here (step :: rest) folder n := by
  obtain ⟨before, m, mid, rfl, hroute, hend⟩ := h.last
  exact ⟨h.isFolder, h.free, h.size, step :: before, m, mid, rfl, hr hroute, hend⟩

theorem endsFree_of_stride (hb : ∀ here steps, d.beyond final links here steps = .ok (.free folder n) →
      ∃ fewer, links = fewer + 1 ∧ d.EndsFree fewer here steps folder n)
    (h : d.stride final (d.beyond final links) here steps = .ok (.free folder n)) :
    d.EndsFree links here steps folder n := by
  induction steps generalizing here with
  | nil => cases h
  | cons step rest ih =>
    cases step with
    | stay => exact (ih h).cons .stay
    | slash => exact (ih h).cons .slash
    | up => exact (ih h).cons .up
    | down m =>
      obtain ⟨⟨-, hm⟩, ⟨hi, rfl, hf, rfl, rfl⟩ | ⟨mode, hi, h⟩ | ⟨id, target, hi, hl, -, h⟩⟩ :=
        stride_down_free.mp h
      · exact ⟨hf, hi, hm, [], m, here, rfl, .done, .inl ⟨rfl, rfl⟩⟩
      · exact (ih h).cons fun hr => .folder (by simp) hm hi hr
      · -- Only if the link is the last step is the free name not among the steps behind it.
        obtain ⟨fewer, rfl, hend⟩ := hb _ _ h
        rcases List.eq_nil_or_concat rest with rfl | ⟨front, last, rfl⟩
        · refine ⟨hend.isFolder, hend.free, hend.size, [], m, here, rfl, .done, .inr ?_⟩
          simp [isLinkAt, node?_of_leaf hi, hl, Node.isLink]
        · obtain ⟨before, k, mid, hs, hr, hlast⟩ := hend.last
          rw [List.concat_eq_append, ← List.append_assoc] at hs
          obtain ⟨rfl, hk⟩ := List.append_inj' hs rfl
          cases hk
          refine ⟨hend.isFolder, hend.free, hend.size, .down m :: front, k, mid, by simp, ?_, hlast⟩
          exact .link (by simp) hm hi hl (by simp) hr

theorem endsFree_of_walk (h : d.walk final links here steps = .ok (.free folder n)) :
    d.EndsFree links here steps folder n := by
  rw [walk_eq_stride] at h
  induction links generalizing here steps with
  | zero => exact endsFree_of_stride (fun _ _ h => by simp [beyond] at h) h
  | succ links ih =>
    refine endsFree_of_stride (fun here steps h => ⟨links, rfl, ih ?_⟩) h
    rwa [← walk_eq_stride]

-- ---------------------------------------------------------------------------
-- Opened files
-- ---------------------------------------------------------------------------

theorem locate_free (h : d.locate final p = .ok (.free folder n)) :
    checkPath p = .ok () ∧ d.EndsFree linkLimit (d.start p) p.steps folder n := by
  simp only [locate, bind_eq_ok, mapError_ok_iff] at h
  obtain ⟨_, hc, hw⟩ := h
  exact ⟨hc, endsFree_of_walk hw⟩

/-- A file that is opened is new, or a leaf that stays unless it is a file to be emptied. -/
theorem openWrite_ok {opening : Opening} (h : d.openWrite p opening = .ok (place, d')) :
    (∃ folder n, d.locate .create p = .ok (.free folder n) ∧ place = folder ++ [n] ∧
      d' = d.addNode place (.file opening.mode [])) ∨
    ∃ id, d.locate .create p = .ok (.found place) ∧ d.item? place = some (.leaf id) ∧
      (d' = d ∨ opening.truncate = true ∧
        ∃ mode bytes, d.node id = .file mode bytes ∧ d' = d.setNode id (.file mode [])) := by
  obtain ⟨spot, hl, h⟩ := bind_eq_ok.mp h
  cases spot with
  | free folder n =>
    cases h
    exact .inl ⟨folder, n, hl, rfl, rfl⟩
  | found q =>
    simp only at h
    split at h
    · rename_i id hi
      split at h
      · rename_i mode bytes hnode
        cases h
        refine .inr ⟨id, hl, hi, ?_⟩
        split
        · rename_i htruncate
          exact .inr ⟨htruncate, mode, bytes, hnode, rfl⟩
        · exact .inl rfl
      · cases h
      · cases h
        exact .inr ⟨id, hl, hi, .inl rfl⟩
    · cases h

theorem append_ok (h : d.append place bytes = .ok d') : ∃ id, d.item? place = some (.leaf id) ∧
    (d' = d ∨ ∃ mode old, d.node id = .file mode old ∧ d' = d.setNode id (.file mode (old ++ bytes))) := by
  unfold append at h
  split at h
  · rename_i id hi
    refine ⟨id, hi, ?_⟩
    split at h
    · rename_i mode old hnode
      cases h
      exact .inr ⟨mode, old, hnode, rfl⟩
    · split at h
      · cases h
        exact .inl rfl
      · cases h
    · cases h
      exact .inl rfl
    · cases h
  · cases h

theorem copyPrefix_keeps {P : Disk → Prop} {src dst : Path} {amount : Nat} {durability : Durability}
    {turns : Turns} (hopen : ∀ place d', d.openWrite dst { truncate := true } = .ok (place, d') →
      P d' ∧ ∀ bytes d'', d'.append place bytes = .ok d'' → P d'') (h : P d) :
    P (d.copyPrefix src amount dst durability turns).2 := by
  unfold copyPrefix
  split
  · exact h
  split
  · exact h
  rename_i target opened ho
  obtain ⟨hopened, happended⟩ := hopen _ _ ho
  simp only
  split
  · exact hopened
  · rename_i after ha
    rw [flush_eq]
    exact happended _ _ ha

theorem copyFile_keeps {P : Disk → Prop} {src dst : Path} {durability : Durability} {turns : Turns}
    (hopen : ∀ place d', d.openWrite dst { truncate := true } = .ok (place, d') →
      P d' ∧ ∀ bytes d'', d'.append place bytes = .ok d'' → P d'') (h : P d) :
    P (d.copyFile src dst durability turns).2 := by
  unfold copyFile
  split
  · exact h
  · exact copyPrefix_keeps hopen h

/-- What is opened at or below the root of growth is new, and stays new when it is filled. -/
theorem Grown.openWrite {opening : Opening} (h : Grown root d d')
    (ho : d'.openWrite p opening = .ok (place, d''))
    (hfree : ∀ folder n, d'.locate .create p = .ok (.free folder n) → root <+: folder ++ [n] ∧ n.CanStand)
    (hfound : d'.locate .create p = .ok (.found place) → d.item? place = none) :
    Grown root d d'' ∧ d.item? place = none := by
  rcases openWrite_ok ho with ⟨folder, n, hl, rfl, rfl⟩ | ⟨id, hl, hi, rfl | ⟨-, mode, bytes, hnode, rfl⟩⟩
  · obtain ⟨hroot, hn⟩ := hfree folder n hl
    obtain ⟨-, hend⟩ := locate_free hl
    refine ⟨h.trans (.addFile h.tree hend.isFolder hn hend.free _ _) hroot, ?_⟩
    cases hi : d.item? (folder ++ [n]) with
    | none => rfl
    | some item =>
      have hfree := hend.free
      simp [h.within.item hi] at hfree
  · exact ⟨h, hfound hl⟩
  · exact ⟨h.setNode hi (hfound hl) _ _, hfound hl⟩

theorem Grown.append (h : Grown root d d') (hq : d.item? place = none)
    (ha : d'.append place bytes = .ok d'') : Grown root d d'' := by
  obtain ⟨id, hi, rfl | ⟨mode, old, -, rfl⟩⟩ := append_ok ha
  · exact h
  · exact h.setNode hi hq _ _

end Disk

end SafeFiles
