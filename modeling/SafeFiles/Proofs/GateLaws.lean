import Mathlib.Data.List.Infix
import SafeFiles.Config.File
import SafeFiles.Proofs.Disk.BrinkLaws
import SafeFiles.Proofs.TempLaws

/-!
# The gate against links

Before a file is made the gate looks at every ancestor of its path and refuses if
one is a link. It looks before the missing folders are made, and what it has seen
still holds of a forthright path afterwards: a folder that has been made is no
link, and behind it comes no other (`Paved`). So the file is made, and every folder
for it, on the way that the path spells (`gate_sound`).
-/

namespace SafeFiles

namespace Path

variable {p a parent : Path}

theorem of_mem_ancestors_parent (h : p.parent? = some parent) (ha : a ∈ parent.ancestors) (hne : a ≠ []) :
    a.isAbsolute = p.isAbsolute ∧ ∃ post, p.bare = a.bare ++ post ∧ ∃ later ∈ post, later ≠ .stay := by
  have hmem : parent ∈ p.properAncestors := List.mem_of_mem_head? h
  by_cases hparent : parent = []
  · subst hparent
    exact absurd (by simpa [ancestors, properAncestors, parts, Text.pieces, shorter] using ha) hne
  · obtain ⟨habs, post, hpost, later, hlater, hstay⟩ := of_mem_properAncestors hmem hparent
    obtain ⟨habs', more, hmore⟩ := of_mem_ancestors ha hne
    exact ⟨habs'.trans habs, more ++ post, by rw [hpost, ← hmore, List.append_assoc], later, by simp [hlater],
      hstay⟩

end Path

namespace Disk

variable {d d' d'' : Disk} {here home mid place q : Place} {c n : Name} {p a parent : Path} {final : Final}
  {links : Nat} {steps front before rest post : List Step} {f : Fault}

-- ---------------------------------------------------------------------------
-- Ways without links
-- ---------------------------------------------------------------------------

/-- The place is reached by the first steps of the path, and no link is followed on the way. -/
def OnWay (d : Disk) (p : Path) (q : Place) : Prop :=
  ∃ front, front <+: p.bare ∧ d.Route .look 0 (d.start p) front q

theorem Route.direct (h : d.Route final links here steps place)
    (hno : ∀ front n mid, front ++ [.down n] <+: steps → d.Route .follow links here front mid →
      d.isLinkAt (mid ++ [n]) = false) : d.Route final 0 here steps place := by
  induction h with
  | done => exact .done
  | stay _ ih =>
    exact .stay (ih fun front n mid hp hr => hno (.stay :: front) n mid (by simpa using hp) hr.stay)
  | slash _ ih =>
    exact .slash (ih fun front n mid hp hr => hno (.slash :: front) n mid (by simpa using hp) hr.slash)
  | up _ ih =>
    exact .up (ih fun front n mid hp hr => hno (.up :: front) n mid (by simpa using hp) hr.up)
  | folder hc hn hi _ ih =>
    refine .folder hc hn hi (ih fun front m mid hp hr => ?_)
    exact hno (.down _ :: front) m mid (by simpa using hp) (.folder (by simp) hn hi hr)
  | @link _ here n _ _ rest _ _ _ hi hl _ _ _ =>
    have hlink := hno [] n here (by simp) .done
    simp [isLinkAt, node?_of_leaf hi, hl, Node.isLink] at hlink
  | leaf hn hi hl => exact .leaf hn hi hl

theorem Route.over_folders (h : d.Route final 0 here steps place) (hf : d.isFolderAt place)
    (hkept : ∀ {q mode}, d.item? q = some (.folder mode) → d'.item? q = some (.folder mode)) :
    d'.Route final 0 here steps place := by
  generalize hlinks : 0 = links at h
  induction h with
  | done => exact .done
  | stay _ ih => exact .stay (ih hf hlinks)
  | slash _ ih => exact .slash (ih hf hlinks)
  | up _ ih => exact .up (ih hf hlinks)
  | folder hc hn hi _ ih => exact .folder hc hn (hkept hi) (ih hf hlinks)
  | link _ _ _ _ _ _ _ => cases hlinks
  | leaf _ hi _ => simp [isFolderAt, hi] at hf

-- ---------------------------------------------------------------------------
-- What the gate has seen
-- ---------------------------------------------------------------------------

theorem anyLink_false {paths : List Path} (h : d.anyLink paths = .ok false) (ha : a ∈ paths) (hne : a ≠ []) :
    (∀ place, d.lstat a = .ok place → d.isLinkAt place = false) ∧
      ∀ f, d.lstat a = .error f → f.isNotFound = true := by
  induction paths with
  | nil => cases ha
  | cons b rest ih =>
    have hrest (h : d.anyLink rest = .ok false) (hb : a ≠ b) :=
      ih h ((List.mem_cons.mp ha).resolve_left hb)
    cases b with
    | nil => exact hrest h hne
    | cons first others =>
      simp only [anyLink] at h
      by_cases hab : a = first :: others
      · subst hab
        cases hl : d.lstat (first :: others) with
        | ok place =>
          rw [hl] at h
          simp only at h
          split at h
          · cases h
          · rename_i hlink
            simpa using hlink
        | error f =>
          rw [hl] at h
          simp only at h
          split at h
          · rename_i hf
            simpa using hf
          · cases h
      · refine hrest ?_ hab
        split at h
        · split at h
          · cases h
          · exact h
        · split at h
          · exact h
          · cases h

theorem lstat_of_route {id : NodeId} (hd : d.WellFormed) (hc : checkPath a = .ok ())
    (hsteps : a.steps = front ++ [.down n]) (hr : d.Route .follow linkLimit (d.start a) front mid)
    (hi : d.item? (mid ++ [n]) = some (.leaf id)) :
    d.lstat a = .ok (mid ++ [n]) := by
  have hf : d.isFolderAt mid := hd.parents (by simp [hi] : (d.item? (mid ++ [n])).isSome)
  refine seek_ok.mpr ⟨hc, ?_, by simp [hi]⟩
  rw [hsteps]
  exact hr.append hf (by simp) (by simp) fun _ => .leaf (hd.names hi n (by simp)).2 hi fun _ => rfl

/-- No name of the path but the last leads to a link. -/
theorem not_link_of_gate (hd : d.WellFormed) (hgate : d.throughLink p = .ok false)
    (hcut : p.bare = front ++ .down n :: post) (hpost : ∃ later ∈ post, later ≠ .stay)
    (hr : d.Route .follow linkLimit (d.start p) front mid) : d.isLinkAt (mid ++ [n]) = false := by
  cases hlink : d.isLinkAt (mid ++ [n]) with
  | false => rfl
  | true =>
    -- The name with all in front of it is an ancestor, so the gate has looked at just this entry.
    obtain ⟨id, hi⟩ := leaf_of_link hlink
    obtain ⟨a, ha, hne, habs, hbare, hsteps⟩ := Path.exists_ancestor hcut (by simp) hpost
    obtain ⟨hlook, hmissing⟩ := anyLink_false hgate ha hne
    cases hc : checkPath a with
    | error f =>
      have hbad : d.lstat a = .error f := by simp [lstat, seek, locate, hc, bind, Except.bind]
      exact absurd (hmissing f hbad) (by simp [isNotFound_of_checkPath hc hne])
    | ok _ =>
      rw [← start_eq rfl habs] at hr
      rw [← hlink]
      exact hlook _ (lstat_of_route hd hc (hsteps.trans hbare) hr hi)

-- ---------------------------------------------------------------------------
-- A way that has been made
-- ---------------------------------------------------------------------------

/-- The disk has grown, and where the path leads to a link, it led there before. -/
structure Paved (d : Disk) (p : Path) (d' : Disk) : Prop where
  grown : Grown [] d d'
  links : ∀ {front n post mid}, p.bare = front ++ .down n :: post →
    d'.Route .follow linkLimit (d.start p) front mid → d'.isLinkAt (mid ++ [n]) →
      d.Route .follow linkLimit (d.start p) front mid

theorem Paved.refl (hd : d.WellFormed) (p : Path) : d.Paved p d := ⟨.refl hd [], fun _ hr _ => hr⟩

theorem Brink.paved (hb : d.Brink (d.start p) before c home) (hp : p.bare = before ++ .down c :: rest)
    (hup : .up ∉ rest) (hg : Grown (home ++ [c]) d d') : d.Paved p d' := by
  refine ⟨hg.mono List.nil_prefix, fun {front n post mid} hcut hr hlink => ?_⟩
  rcases hb.cut hg (hcut.symm.trans hp) hup hr (hg.tree.isFolderAt_of_link hlink) with
    ⟨-, -, -, hr'⟩ | ⟨hnone, more, -, rfl⟩
  · exact hr'
  · rw [hg.not_link hb.tree hnone ((List.prefix_append _ _).trans (List.prefix_append _ _))] at hlink
    cases hlink

/-- What the gate has seen of the old names holds of the new ones. -/
theorem Paved.not_link (h : d.Paved p d') (hd : d.WellFormed) (hgate : d.throughLink p = .ok false)
    (hcut : p.bare = front ++ .down n :: post) (hpost : ∃ later ∈ post, later ≠ .stay)
    (hr : d'.Route .follow linkLimit (d.start p) front mid) : d'.isLinkAt (mid ++ [n]) = false := by
  cases hlink : d'.isLinkAt (mid ++ [n]) with
  | false => rfl
  | true =>
    have hold := not_link_of_gate hd hgate hcut hpost (h.links hcut hr hlink)
    simp [h.grown.link_before hlink] at hold

theorem Paved.direct (h : d.Paved p d') (hd : d.WellFormed) (hgate : d.throughLink p = .ok false)
    (hcut : p.bare = front ++ post) (hpost : ∃ later ∈ post, later ≠ .stay)
    (hr : d'.Route .follow linkLimit (d.start p) front place) :
    d'.Route .follow 0 (d.start p) front place := by
  refine hr.direct fun inner n mid hinner hr' => ?_
  obtain ⟨later, hlater, hstay⟩ := hpost
  obtain ⟨rest, rfl⟩ := hinner
  have hcut' : p.bare = inner ++ .down n :: (rest ++ post) := by simp [hcut]
  exact h.not_link hd hgate hcut' ⟨later, by simp [hlater], hstay⟩ hr'

theorem OnWay.over_folders (h : d.OnWay p q) (hf : d.isFolderAt q) (hcwd : d'.cwd = d.cwd)
    (hkept : ∀ {q mode}, d.item? q = some (.folder mode) → d'.item? q = some (.folder mode)) :
    d'.OnWay p q := by
  obtain ⟨front, hfront, hr⟩ := h
  exact ⟨front, hfront, by rw [Within.start hcwd]; exact hr.over_folders hf hkept⟩

theorem Paved.onWay_next (h : d.Paved p d') (hd : d.WellFormed) (hgate : d.throughLink p = .ok false)
    (hcut : p.bare = front ++ .down n :: post) (hr : d'.Route .follow linkLimit (d.start p) front mid)
    (hf : d'.isFolderAt mid) (hn : Text.utf8Size n ≤ nameLimit) (hcwd : d''.cwd = d'.cwd)
    (hkept : ∀ {q mode}, d'.item? q = some (.folder mode) → d''.item? q = some (.folder mode))
    (hi : (d''.item? (mid ++ [n])).isSome) : d''.OnWay p (mid ++ [n]) := by
  have hdirect := (h.direct hd hgate hcut ⟨_, List.mem_cons_self, by simp⟩ hr).over_folders hf hkept
  rw [← Within.start (hcwd.trans h.grown.cwd)] at hdirect
  obtain ⟨mode, hm⟩ := isFolderAt_iff.mp hf
  obtain ⟨item, hi⟩ := Option.isSome_iff_exists.mp hi
  refine ⟨front ++ [.down n], ⟨post, by rw [hcut]; simp⟩,
    hdirect.append (isFolderAt_of_item (hkept hm)) (by simp) (by simp) fun _ => ?_⟩
  cases item with
  | folder mode => exact .folder (by simp) hn hi .done
  | leaf id => exact .leaf hn hi fun _ => rfl

/-- All that is new is folders on the way. -/
structure Laid (d : Disk) (p : Path) (d' : Disk) : Prop extends Paved d p d' where
  added : ∀ {q}, d.item? q = none → (d'.item? q).isSome → d'.isFolderAt q ∧ d'.OnWay p q

theorem Laid.refl (hd : d.WellFormed) (p : Path) : d.Laid p d :=
  ⟨.refl hd p, fun hn hs => by simp [hn] at hs⟩

theorem Laid.makeFolder (h : d.Laid p d') (hd : d.WellFormed) (hgate : d.throughLink p = .ok false)
    (habs : a.isAbsolute = p.isAbsolute) (hbare : p.bare = a.bare ++ post) (hm : d'.makeFolder a = .ok d'')
    (hpaved : d.Paved p d'') : d.Laid p d'' := by
  obtain ⟨folder, n, slash, hf, hn, hi, rfl⟩ := makeFolder_ok.mp hm
  obtain ⟨front, hs, hr, hfolder⟩ := folderOf_name hf
  have hw : d'.Within (d'.setItem (folder ++ [n]) (.folder newFolderMode)) := within_setItem _ (by simp) hi
  refine ⟨hpaved, fun {q} hq hs' => ?_⟩
  rw [item?_setItem _ _ _ _ (by simp)] at hs'
  split at hs'
  · rename_i heq
    subst heq
    have hcut : p.bare = front ++ .down n :: post := by
      rw [hbare, Path.bare_of_steps _ hs]
      simp
    rw [start_eq h.grown.cwd habs] at hr
    refine ⟨by simp [isFolderAt, item?_setItem], ?_⟩
    exact h.onWay_next hd hgate hcut hr hfolder hn rfl hw.item (by simp [item?_setItem])
  · obtain ⟨hf, hway⟩ := h.added hq hs'
    exact ⟨hw.isFolderAt hf, hway.over_folders hf rfl hw.item⟩

theorem makeFolders_of_route (hparent : p.parent? = some parent)
    (hr : d.Route .follow linkLimit (d.start p) p.bare place) : (d.makeFolders parent).2 = d := by
  refine makeFoldersFrom_keeps (P := (· = d)) (fun a ha hne made made' heq hm => ?_) rfl
  subst heq
  obtain ⟨habs, post, hpost, -⟩ := Path.of_mem_ancestors_parent hparent ha hne
  obtain ⟨folder, n, slash, hf, -, hi, -⟩ := makeFolder_ok.mp hm
  obtain ⟨front, hs, hr', -⟩ := folderOf_name hf
  rw [hpost, Path.bare_of_steps _ hs, List.append_assoc] at hr
  rw [start_eq rfl habs] at hr'
  have hthere := hr.item?_next hr'
  simp [hi] at hthere

theorem laid_makeFolders (hd : d.WellFormed) (hp : d.Forthright p) (hgate : d.throughLink p = .ok false)
    (hparent : p.parent? = some parent) : d.Laid p (d.makeFolders parent).2 := by
  obtain ⟨before, rest, home, hbare, hup, hr, hf⟩ := hp
  rcases exists_brink hd hr hf hup with ⟨place, hr, -⟩ | ⟨more, n, after, home, rfl, hbrink⟩
  · rw [← hbare] at hr
    rw [makeFolders_of_route hparent hr]
    exact .refl hd p
  · rw [← List.append_assoc] at hbare
    have hup' : .up ∉ after := fun h => hup (by simp [h])
    refine (makeFoldersFrom_keeps (P := fun d' => Grown (home ++ [n]) d d' ∧ d.Laid p d')
      (fun a ha hne d' d'' h hm => ?_) ⟨.refl hd _, .refl hd p⟩).2
    obtain ⟨hg, hlaid⟩ := h
    obtain ⟨habs, post, hpost, -⟩ := Path.of_mem_ancestors_parent hparent ha hne
    obtain ⟨later, -, -, -, hnew⟩ :=
      hbrink.makeFolder hg (start_eq rfl habs) ⟨post, hpost.symm.trans hbare⟩ hup' hm
    have hg' := hg.trans hnew (List.prefix_append _ _)
    exact ⟨hg', hlaid.makeFolder hd hgate habs hpost hm (hbrink.paved hbare hup' hg')⟩

theorem Laid.sameAt_or (h : d.Laid p d') (q : Place) : d.SameAt d' q ∨ d'.isFolderAt q ∧ d'.OnWay p q := by
  refine (h.grown.within.sameAt_or_new q).imp id ?_
  rintro ⟨hnone, item, hi⟩
  exact h.added hnone (by simp [hi])

-- ---------------------------------------------------------------------------
-- Files at the end of the way
-- ---------------------------------------------------------------------------

theorem Same.item? (h : d.Same d') {item : Option Item} (hi : d.item? q = item) : d'.item? q = item :=
  (h.entries q).1.trans hi

theorem Laid.stored (h : d.Laid p d') (hd : d.WellFormed) (hgate : d.throughLink p = .ok false)
    {bytes : Bytes} {slash : Bool} (hf : d'.folderOf p = .ok (place, .name n slash))
    (hn : Text.utf8Size n ≤ nameLimit) (hs : Stored d' (place ++ [n]) bytes d'') :
    ∀ q, d.SameAt d'' q ∨ d''.OnWay p q := by
  have hkept {q mode} (hi : d'.item? q = some (.folder mode)) : d''.item? q = some (.folder mode) := by
    rw [hs.items, if_neg, hi]
    rintro rfl
    have hleaf := hs.leaf
    simp [isFolderAt, hi] at hleaf
  intro q
  by_cases hq : place ++ [n] = q
  · subst hq
    obtain ⟨front, hsteps, hr, hfolder⟩ := folderOf_name hf
    rw [Within.start h.grown.cwd] at hr
    exact .inr (h.onWay_next hd hgate (Path.bare_of_steps _ hsteps) hr hfolder hn hs.cwd hkept
      (by simp [hs.item?_place]))
  · rcases h.sameAt_or q with hsame | ⟨hfolder, hway⟩
    · exact .inl (hsame.trans (hs.sameAt hq))
    · exact .inr (hway.over_folders hfolder hs.cwd hkept)

theorem Laid.same (h : d.Laid p d') (hs : d'.Same d'') : ∀ q, d.SameAt d'' q ∨ d''.OnWay p q := by
  intro q
  rcases h.sameAt_or q with hsame | ⟨hfolder, hway⟩
  · exact .inl (hsame.trans (hs.entries q))
  · exact .inr (hway.over_folders hfolder hs.cwd hs.item?)

theorem Route.ends_in_name (hd : d.WellFormed) (h : d.Route final links here steps place)
    (hhere : d.isFolderAt here) (hplace : d.isFolderAt place = false) :
    ∃ front n, steps = front ++ [.down n] := by
  rcases List.eq_nil_or_concat steps with rfl | ⟨front, step, rfl⟩
  · cases h
    simp [hhere] at hplace
  · rw [List.concat_eq_append] at h ⊢
    obtain ⟨mid, _, -, -, hlast, hmid⟩ := h.split (by simp)
    have hf := hmid hd hhere
    cases step with
    | down n => exact ⟨front, n, rfl⟩
    | stay =>
      cases hlast with | stay hdone => cases hdone; simp [hf] at hplace
    | slash =>
      cases hlast with | slash hdone => cases hdone; simp [hf] at hplace
    | up =>
      cases hlast with
      | up hdone =>
        cases hdone
        simp [hd.isFolderAt_dropLast hf] at hplace

theorem Forthright.ends_in_name (hp : d.Forthright p) (hw : d.Within d') (hd' : d'.WellFormed)
    (hr : d'.Route .follow linkLimit (d.start p) p.steps place) (hplace : d'.isFolderAt place = false) :
    ∃ front n, p.steps = front ++ [.down n] := by
  obtain ⟨before, rest, home, hbare, -, hhome, hf⟩ := hp
  obtain ⟨more, hsteps⟩ : ∃ more, p.steps = before ++ more := by
    rcases p.steps_eq with hs | hs
    · exact ⟨rest, hs.trans hbare⟩
    · exact ⟨rest ++ [.slash], by rw [hs, hbare, List.append_assoc]⟩
  rw [hsteps] at hr ⊢
  by_cases hmore : more = []
  · rw [hmore, List.append_nil] at hr
    obtain rfl := hr.unique (hhome.within hw)
    simp [hw.isFolderAt hf] at hplace
  · obtain ⟨mid, _, -, hmid, hlast, -⟩ := hr.split hmore
    obtain rfl := hmid.unique (hhome.within hw)
    obtain ⟨front, n, rfl⟩ := hlast.ends_in_name hd' (hw.isFolderAt hf) hplace
    exact ⟨before ++ front, n, by simp⟩

theorem Paved.not_link_last (h : d.Paved p d') (hd : d.WellFormed) (hc : checkPath p = .ok ())
    (hlink : ∀ place, d.lstat p = .ok place → d.isLinkAt place = false) (hsteps : p.steps = front ++ [.down n])
    (hr : d'.Route .follow linkLimit (d.start p) front mid) : d'.isLinkAt (mid ++ [n]) = false := by
  cases hnew : d'.isLinkAt (mid ++ [n]) with
  | false => rfl
  | true =>
    have hold := h.grown.link_before hnew
    obtain ⟨id, hi⟩ := leaf_of_link hold
    rw [← hold]
    exact hlink _ (lstat_of_route hd hc hsteps (h.links (Path.bare_of_steps false hsteps) hr hnew) hi)

theorem Laid.opened {mode : Mode} (h : d.Laid p d') (hd : d.WellFormed) (hp : d.Forthright p)
    (hgate : d.throughLink p = .ok false)
    (hlink : ∀ place, d.lstat p = .ok place → d.isLinkAt place = false)
    (ho : d'.openWrite p { truncate := false, mode } = .ok (place, d'')) :
    d'.Within d'' ∧ d''.cwd = d'.cwd ∧ d''.OnWay p place ∧ ∀ q, place ≠ q → d'.SameAt d'' q := by
  rcases openWrite_ok ho with ⟨folder, n, hl, rfl, rfl⟩ | ⟨id, hl, hi, rfl | ⟨htruncate, -⟩⟩
  · obtain ⟨hc, hend⟩ := locate_free hl
    obtain ⟨front, m, mid, hsteps, hr, hlast⟩ := hend.last
    rw [Within.start h.grown.cwd] at hr
    obtain ⟨rfl, rfl⟩ := hlast.resolve_right (by simp [h.not_link_last hd hc hlink hsteps hr])
    have hw := within_addNode (.file mode []) (by simp) hend.free
    refine ⟨hw, rfl, ?_, fun q hq => ?_⟩
    · exact h.onWay_next hd hgate (Path.bare_of_steps false hsteps) hr hend.isFolder hend.size rfl hw.item
        (by simp [item?_addNode])
    · exact .of_item (by rw [item?_addNode _ _ _ (by simp), if_neg hq]) fun _ hi => hw.node hi
  · refine ⟨.refl _, rfl, ?_, fun q _ => .refl _ q⟩
    obtain ⟨hc, hr⟩ := locate_found.mp hl
    rw [Within.start h.grown.cwd] at hr
    have hr := hr.follow_of_create
    obtain ⟨front, n, hsteps⟩ := hp.ends_in_name h.grown.within h.grown.tree hr (isFolderAt_of_leaf hi)
    rw [hsteps] at hr
    obtain ⟨mid, _, -, hmid, hlast, -⟩ := hr.split (by simp)
    have hnot := h.not_link_last hd hc hlink hsteps hmid
    cases hlast with
    | folder _ _ hi' hdone =>
      cases hdone
      simp [hi] at hi'
    | link _ _ hi' hn _ _ => simp [isLinkAt, node?_of_leaf hi', hn, Node.isLink] at hnot
    | leaf hn hi' _ =>
      have hsome : (d''.item? (mid ++ [n])).isSome := by simp [hi']
      exact h.onWay_next hd hgate (Path.bare_of_steps false hsteps) hmid (h.grown.tree.parents hsome) hn rfl
        (Within.refl _).item hsome
  · cases htruncate

end Disk

-- ---------------------------------------------------------------------------
-- What the gate lets through
-- ---------------------------------------------------------------------------

namespace Config

variable {d : Disk} {parent p : Path} {bytes : Bytes} {s : Session}

/-- Either nothing has changed, or the bytes stand at the place that the path names. In the second case all
that can still fail is to open the folder once more. -/
theorem place_ok (hd : d.WellFormed) (parent p : Path) (bytes : Bytes) :
    (∃ r, (place d parent p bytes).1 = .error r) ∧ d.Same (place d parent p bytes).2 ∨
      ∃ folder n, d.folderOf p = .ok (folder, .name n false) ∧ Text.utf8Size n ≤ nameLimit ∧
        d.Stored (folder ++ [n]) bytes (place d parent p bytes).2 ∧
        ((place d parent p bytes).1 = .ok () ↔ ∃ home, (place d parent p bytes).2.stat parent = .ok home) := by
  unfold place
  split
  · exact .inl ⟨⟨_, rfl⟩, .refl d⟩
  · rename_i temp reserved hreserve
    obtain ⟨-, _, hscratch⟩ := Temp.reserve_ok hreserve
    obtain ⟨written, hwritten, hscratch⟩ := hscratch.write bytes
    rw [hwritten]
    simp only
    split
    · rename_i after hcommit
      unfold commit at hcommit
      split at hcommit
      · cases hcommit
      · obtain ⟨-, folder, n, hf, hn, hstored⟩ := hscratch.rename hd hcommit
        cases hstat : after.stat parent with
        | ok home => exact .inr ⟨folder, n, hf, hn, hstored, by simp [hstat]⟩
        | error f => exact .inr ⟨folder, n, hf, hn, hstored, by simp [hstat]⟩
    · exact .inl ⟨⟨_, rfl⟩, hscratch.discard⟩

theorem writeSecure_onWay (hd : d.WellFormed) (hgate : d.throughLink p = .ok false) (hp : d.Forthright p)
    (bytes : Bytes) (q : Place) :
    d.SameAt (writeSecure d p bytes).2 q ∨ (writeSecure d p bytes).2.OnWay p q := by
  unfold writeSecure
  split
  · exact .inl (.refl d q)
  · exact .inl (.refl d q)
  · rename_i parent _ hparent
    have hlaid := Disk.laid_makeFolders hd hp hgate hparent
    split
    · rename_i made heq
      rw [heq] at hlaid
      exact (hlaid.sameAt_or q).imp id And.right
    · rename_i made heq
      rw [heq] at hlaid
      rcases place_ok hlaid.grown.tree parent p bytes with ⟨-, hsame⟩ | ⟨folder, n, hf, hn, hstored, -⟩
      · exact hlaid.same hsame q
      · exact hlaid.stored hd hgate hf hn hstored q

theorem createTemplate_onWay (hd : s.disk.WellFormed) (hgate : s.disk.throughLink p = .ok false)
    (hp : s.disk.Forthright p) (q : Place) :
    s.disk.SameAt (createTemplate s p).2.disk q ∨ (createTemplate s p).2.disk.OnWay p q := by
  unfold createTemplate
  split
  · exact .inl (.refl _ q)
  · have hwrite := writeSecure_onWay hd hgate hp (Text.toUtf8 (template s.world.env)) q
    rw [hgate]
    simp only
    split
    · rename_i heq
      simpa [heq] using hwrite
    · rename_i heq
      simpa [heq] using hwrite

end Config

namespace Disk

variable {d : Disk} {p : Path}

theorem openLog_cases (d : Disk) (p : Path) : ∃ made,
    (made = d ∨ ∃ parent, p.parent? = some parent ∧ made = (d.makeFolders parent).2) ∧
      ((∃ place, made.openWrite p { truncate := false, mode := privateFileMode } =
          .ok (place, (d.openLog p).2) ∧ (d.openLog p).1 = .ok place) ∨
        (d.openLog p).2 = made ∧ ∃ f, (d.openLog p).1 = .error f) := by
  have hopen (made : Disk)
      (hok : ∀ place d', made.openWrite p { truncate := false, mode := privateFileMode } = .ok (place, d') →
        d.openLog p = (.ok place, d'))
      (herror : ∀ f, made.openWrite p { truncate := false, mode := privateFileMode } = .error f →
        d.openLog p = (.error f, made)) :
      (∃ place, made.openWrite p { truncate := false, mode := privateFileMode } =
          .ok (place, (d.openLog p).2) ∧ (d.openLog p).1 = .ok place) ∨
        (d.openLog p).2 = made ∧ ∃ f, (d.openLog p).1 = .error f := by
    cases ho : made.openWrite p { truncate := false, mode := privateFileMode } with
    | ok opened => exact .inl ⟨opened.1, by simp [hok _ _ ho]⟩
    | error f => exact .inr (by simp [herror f ho])
  cases hparent : p.parent? with
  | none =>
    refine ⟨d, .inl rfl, hopen d ?_ ?_⟩
    · intro place d' ho
      simp [openLog, hparent, ho]
    · intro f ho
      simp [openLog, hparent, ho]
  | some parent =>
    refine ⟨_, .inr ⟨parent, rfl, rfl⟩, hopen _ ?_ ?_⟩
    · intro place d' ho
      simp [openLog, hparent, ho]
    · intro f ho
      simp [openLog, hparent, ho]

theorem openLog_onWay (hd : d.WellFormed) (hgate : d.throughLink p = .ok false) (hp : d.Forthright p)
    (hlink : ∀ place, d.lstat p = .ok place → d.isLinkAt place = false) :
    (∀ q, d.SameAt (d.openLog p).2 q ∨ (d.openLog p).2.OnWay p q) ∧
      ∀ place, (d.openLog p).1 = .ok place → (d.openLog p).2.OnWay p place := by
  obtain ⟨made, hmade, hopen⟩ := openLog_cases d p
  have hlaid : d.Laid p made := by
    rcases hmade with rfl | ⟨parent, hparent, rfl⟩
    · exact .refl hd p
    · exact laid_makeFolders hd hp hgate hparent
  rcases hopen with ⟨place, ho, hok⟩ | ⟨hsame, f, hfail⟩
  · obtain ⟨hw, hcwd, hway, hsame⟩ := hlaid.opened hd hp hgate hlink ho
    rw [hok]
    refine ⟨fun q => ?_, fun _ hplace => by cases hplace; exact hway⟩
    by_cases hq : place = q
    · exact .inr (hq ▸ hway)
    · rcases hlaid.sameAt_or q with hold | ⟨hfolder, hnew⟩
      · exact .inl (hold.trans (hsame q hq))
      · exact .inr (hnew.over_folders hfolder hcwd hw.item)
  · rw [hsame, hfail]
    exact ⟨fun q => (hlaid.sameAt_or q).imp id And.right, fun _ h => nomatch h⟩

end Disk

namespace Session

/-- Behind an open gate, all that a first configuration or an opened log changes stands on the way that the
path spells, as long as the path is forthright. -/
theorem gate_sound (s : Session) (p : Path) (hd : s.disk.WellFormed)
    (hgate : s.disk.throughLink p = .ok false) (hp : s.disk.Forthright p) :
    (∀ q, s.disk.SameAt (Config.createTemplate s p).2.disk q ∨ (Config.createTemplate s p).2.disk.OnWay p q) ∧
      ((∀ place, s.disk.lstat p = .ok place → s.disk.isLinkAt place = false) →
        (∀ q, s.disk.SameAt (s.disk.openLog p).2 q ∨ (s.disk.openLog p).2.OnWay p q) ∧
          ∀ place, (s.disk.openLog p).1 = .ok place → (s.disk.openLog p).2.OnWay p place) :=
  ⟨Config.createTemplate_onWay hd hgate hp, Disk.openLog_onWay hd hgate hp⟩

def linkedFolder : Session where
  world := { disk := {
    items := [(["real".toList], .folder 0o755), ([['l']], .leaf 0), ([['d']], .folder 0o755)]
    nodes := [(0, .link "real".toList)]
    cwd := [] } }

theorem linkedFolder_gate : linkedFolder.disk.WellFormed ∧
    linkedFolder.disk.throughLink "d/../m/x".toList = .ok false ∧
    linkedFolder.disk.Forthright "d/../m/x".toList ∧
    (∀ place, linkedFolder.disk.lstat "d/../m/x".toList = .ok place → linkedFolder.disk.isLinkAt place = false) ∧
    ((linkedFolder.disk.openLog "d/../m/x".toList).1 = .ok [['m'], ['x']] ∧
      (linkedFolder.disk.openLog "d/../m/x".toList).2.OnWay "d/../m/x".toList [['m'], ['x']]) ∧
    ∀ q, linkedFolder.disk.SameAt (Config.createTemplate linkedFolder "d/../m/x".toList).2.disk q ∨
      (Config.createTemplate linkedFolder "d/../m/x".toList).2.disk.OnWay "d/../m/x".toList q := by
  have hd : linkedFolder.disk.WellFormed := .of_items (by decide)
  have hgate : linkedFolder.disk.throughLink "d/../m/x".toList = .ok false := by rfl
  have hp : linkedFolder.disk.Forthright "d/../m/x".toList :=
    ⟨[.down ['d'], .up], [.down ['m'], .down ['x']], [], by decide, by decide, Disk.walk_found.mp (by decide),
      by decide⟩
  have hlink place (hl : linkedFolder.disk.lstat "d/../m/x".toList = .ok place) :
      linkedFolder.disk.isLinkAt place = false := by
    have hmissing : (linkedFolder.disk.lstat "d/../m/x".toList).isOk = false := by decide
    rw [hl] at hmissing
    cases hmissing
  obtain ⟨htemplate, hlog⟩ := gate_sound linkedFolder "d/../m/x".toList hd hgate hp
  have hopened : (linkedFolder.disk.openLog "d/../m/x".toList).1 = .ok [['m'], ['x']] := by rfl
  exact ⟨hd, hgate, hp, hlink, ⟨hopened, (hlog hlink).2 _ hopened⟩, htemplate⟩

/-- The folder `m` is not there when the gate looks, and so it looks at nothing behind the `..`. -/
theorem gate_misses_link : linkedFolder.disk.throughLink "m/../l/x".toList = .ok false ∧
    linkedFolder.disk.item? ["real".toList, ['x']] = none ∧
    ((Config.createTemplate linkedFolder "m/../l/x".toList).2.disk.item? ["real".toList, ['x']]).isSome = true ∧
    ¬ (Config.createTemplate linkedFolder "m/../l/x".toList).2.disk.OnWay "m/../l/x".toList
      ["real".toList, ['x']] := by
  refine ⟨rfl, by decide, by decide +kernel, ?_⟩
  rintro ⟨front, hfront, hr⟩
  have hnone : ∀ front ∈ (Path.bare "m/../l/x".toList).inits,
      (Config.createTemplate linkedFolder "m/../l/x".toList).2.disk.walk .look 0
        ((Config.createTemplate linkedFolder "m/../l/x".toList).2.disk.start "m/../l/x".toList) front ≠
      .ok (.found ["real".toList, ['x']]) := by
    decide +kernel
  exact hnone front ((List.mem_inits _ _).mpr hfront) (Disk.walk_found.mpr hr)

end Session

end SafeFiles
