import SafeFiles.Proofs.Disk.GrowthLaws

/-!
# Entries that are kept

To open a file and to write to it takes no entry away and changes no link; only
bytes of files can be lost (`Kept`). So every path that leads somewhere still leads
there, and one that leads to a free name leads to the file that is made for it.
-/

namespace SafeFiles

namespace Disk

variable {d d' d'' : Disk} {here place folder : Place} {n : Name} {links : Nat} {steps : List Step} {id : NodeId}
  {mode : Mode} {bytes bytes' : Bytes} {p : Path} {final : Final} {target : Path}

-- ---------------------------------------------------------------------------
-- Entries that are kept
-- ---------------------------------------------------------------------------

structure Kept (d d' : Disk) : Prop where
  item : ∀ {place item}, d.item? place = some item → d'.item? place = some item
  node : ∀ {place id}, d.item? place = some (.leaf id) → d'.node id = d.node id ∨
    ∃ mode bytes bytes', d.node id = .file mode bytes ∧ d'.node id = .file mode bytes'

theorem Within.kept (h : d.Within d') : d.Kept d' := ⟨h.item, fun hi => .inl (h.node hi)⟩

theorem Kept.trans (h : d.Kept d') (h' : d'.Kept d'') : d.Kept d'' := by
  refine ⟨fun hi => h'.item (h.item hi), fun hi => ?_⟩
  rcases h.node hi with hn | ⟨mode, bytes, bytes', hn, hn'⟩
  · rw [← hn]
    exact h'.node (h.item hi)
  · rcases h'.node (h.item hi) with hn'' | ⟨mode', _, bytes'', hfile, hn''⟩
    · exact .inr ⟨mode, bytes, bytes', hn, hn''.trans hn'⟩
    · cases hn'.symm.trans hfile
      exact .inr ⟨mode, bytes, bytes'', hn, hn''⟩

theorem kept_setNode (h : d.node id = .file mode bytes) (bytes' : Bytes) :
    d.Kept (d.setNode id (.file mode bytes')) := by
  refine ⟨fun hi => by rwa [item?_setNode], fun {_ other} _ => ?_⟩
  rw [node_setNode]
  split
  · rename_i heq
    subst heq
    exact .inr ⟨mode, bytes, bytes', h, rfl⟩
  · exact .inl rfl

theorem kept_openWrite {opening : Opening} (h : d.openWrite p opening = .ok (place, d')) : d.Kept d' := by
  rcases openWrite_ok h with ⟨folder, n, hl, rfl, rfl⟩ | ⟨id, -, -, rfl | ⟨-, mode, bytes, hn, rfl⟩⟩
  · exact (within_addNode _ (by simp) (locate_free hl).2.free).kept
  · exact (Within.refl _).kept
  · exact kept_setNode hn _

theorem kept_append (h : d.append place bytes = .ok d') : d.Kept d' := by
  obtain ⟨id, -, rfl | ⟨mode, old, hn, rfl⟩⟩ := append_ok h
  · exact (Within.refl _).kept
  · exact kept_setNode hn _

-- ---------------------------------------------------------------------------
-- Paths on a disk that is kept
-- ---------------------------------------------------------------------------

theorem Kept.link (h : d.Kept d') (hi : d.item? place = some (.leaf id)) (hl : d.node id = .link target) :
    d'.node id = .link target := by
  rcases h.node hi with hn | ⟨mode, bytes, bytes', hn, -⟩
  · rw [hn, hl]
  · cases hl.symm.trans hn

theorem Kept.isLink (h : d.Kept d') (hi : d.item? place = some (.leaf id)) :
    (d'.node id).isLink = (d.node id).isLink := by
  rcases h.node hi with hn | ⟨mode, bytes, bytes', hn, hn'⟩
  · rw [hn]
  · rw [hn, hn']
    rfl

theorem Route.kept (h : d.Route final links here steps place) (hk : d.Kept d') :
    d'.Route final links here steps place := by
  induction h with
  | done => exact .done
  | stay _ ih => exact .stay ih
  | slash _ ih => exact .slash ih
  | up _ ih => exact .up ih
  | folder hc hn hi _ ih => exact .folder hc hn (hk.item hi) ih
  | link hc hn hi hl hr _ ih => exact .link hc hn (hk.item hi) (hk.link hi hl) hr ih
  | leaf hn hi hl => exact .leaf hn (hk.item hi) (hk.isLink hi ▸ hl)

theorem Kept.seek (h : d.Kept d') (hcwd : d'.cwd = d.cwd) (hs : d.seek final p = .ok place) :
    d'.seek final p = .ok place := by
  obtain ⟨hc, hr, hi⟩ := seek_ok.mp hs
  obtain ⟨item, hi⟩ := Option.isSome_iff_exists.mp hi
  exact seek_ok.mpr ⟨hc, by rw [Within.start hcwd]; exact hr.kept h, by simp [h.item hi]⟩

/-- A stride to a free name leads to the file that has been made there, if a walk beyond its links does. -/
theorem route_of_stride_free (h : d.Kept d') (hi : d'.item? (folder ++ [n]) = some (.leaf id))
    (hl : (d'.node id).isLink = false)
    (hb : ∀ here steps, d.beyond final links here steps = .ok (.free folder n) →
      ∃ fewer, links = fewer + 1 ∧ d'.Route .follow fewer here steps (folder ++ [n]))
    (hs : d.stride final (d.beyond final links) here steps = .ok (.free folder n)) :
    d'.Route .follow links here steps (folder ++ [n]) := by
  induction steps generalizing here with
  | nil => cases hs
  | cons step rest ih =>
    cases step with
    | stay => exact .stay (ih hs)
    | slash => exact .slash (ih hs)
    | up => exact .up (ih hs)
    | down m =>
      obtain ⟨⟨-, hm⟩, ⟨-, rfl, -, rfl, rfl⟩ | ⟨mode, hfolder, hs⟩ | ⟨id', target, hitem, hlink, -, hs⟩⟩ :=
        stride_down_free.mp hs
      · exact .leaf hm hi fun h => by simp [hl] at h
      · exact .folder (by simp) hm (h.item hfolder) (ih hs)
      · obtain ⟨fewer, rfl, hroute⟩ := hb _ _ hs
        exact .link (by simp) hm (h.item hitem) (h.link hitem hlink) (by simp) hroute

theorem route_of_walk_free (h : d.Kept d') (hi : d'.item? (folder ++ [n]) = some (.leaf id))
    (hl : (d'.node id).isLink = false) (hw : d.walk final links here steps = .ok (.free folder n)) :
    d'.Route .follow links here steps (folder ++ [n]) := by
  rw [walk_eq_stride] at hw
  induction links generalizing here steps with
  | zero => exact route_of_stride_free h hi hl (fun _ _ h => by simp [beyond] at h) hw
  | succ links ih =>
    refine route_of_stride_free h hi hl (fun here steps hs => ⟨links, rfl, ih ?_⟩) hw
    rwa [← walk_eq_stride]

end Disk

end SafeFiles
