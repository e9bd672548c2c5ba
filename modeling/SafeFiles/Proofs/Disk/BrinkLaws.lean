import SafeFiles.Proofs.Disk.GrowthLaws
import SafeFiles.Proofs.Path.AncestorLaws

/-!
# The brink of a path

A path that leads to no folder has a brink: the first name that leads to none, and
the folder in front of it. What is made for the sake of the path stands at the
brink or below as long as no `..` comes behind it, and then all that the path
leads to beyond the brink is new (`Brink.beyond`). A `..` behind the brink voids
this: once the missing names have been made it leads back among the old entries.
-/

namespace SafeFiles

namespace Step

def names (steps : List Step) : List Name :=
  steps.filterMap fun
    | .down n => some n
    | _ => none

variable {steps rest : List Step} {n : Name}

theorem names_append : names (steps ++ rest) = names steps ++ names rest := List.filterMap_append

theorem names_down : names (.down n :: rest) = n :: names rest := rfl

theorem names_map_down (rel : List Name) : names (rel.map .down) = rel := by
  induction rel with
  | nil => rfl
  | cons n rel ih => rw [List.map_cons, names_down, ih]

end Step

namespace Path

variable {p : Path} {before : List Step} {n : Name}

theorem slash_not_mem_bare (p : Path) : .slash ∉ p.bare := by
  intro h
  obtain ⟨piece, -, hof⟩ := List.mem_filterMap.mp h
  unfold Step.ofPiece? at hof
  split at hof
  · cases hof
  · split at hof
    · cases hof
    · split at hof <;> cases hof

theorem bare_of_steps (slash : Bool) (h : p.steps = before ++ .down n :: (if slash then [.slash] else [])) :
    p.bare = before ++ [.down n] := by
  have hslash := slash_not_mem_bare p
  rcases p.steps_eq with hs | hs <;> rw [hs] at h <;> cases slash
  · exact h
  · simp [h] at hslash
  · simpa using congrArg List.getLast? h
  · have hsame : p.bare ++ [.slash] = before ++ [.down n] ++ [.slash] := by simpa using h
    exact List.append_cancel_right hsame

end Path

namespace Disk

variable {d d' d'' : Disk} {here home root folder place q : Place} {c n : Name} {p a : Path} {final : Final}
  {links : Nat} {front before rest post : List Step} {id : NodeId}

-- ---------------------------------------------------------------------------
-- Where a path stops
-- ---------------------------------------------------------------------------

/-- Up to its last `..` the path leads to a folder. -/
def Forthright (d : Disk) (p : Path) : Prop :=
  ∃ before rest home, p.bare = before ++ rest ∧ .up ∉ rest ∧
    d.Route .follow linkLimit (d.start p) before home ∧ d.isFolderAt home

/-- The steps before the name lead home, but with the name they lead to no folder. -/
structure Brink (d : Disk) (here : Place) (before : List Step) (c : Name) (home : Place) : Prop where
  tree : d.WellFormed
  folder : d.isFolderAt home
  home : d.Route .follow linkLimit here before home
  stop : ∀ {place}, d.Route .follow linkLimit here (before ++ [.down c]) place → d.isFolderAt place = false

theorem exists_brink (hd : d.WellFormed)
    (h : d.Route .follow linkLimit here before home) (hf : d.isFolderAt home) (hup : .up ∉ rest) :
    (∃ place, d.Route .follow linkLimit here (before ++ rest) place ∧ d.isFolderAt place) ∨
      ∃ more c after place, rest = more ++ .down c :: after ∧ d.Brink here (before ++ more) c place := by
  induction rest generalizing before home with
  | nil => exact .inl ⟨home, by simpa using h, hf⟩
  | cons step rest ih =>
    have hrest : .up ∉ rest := fun hmem => hup (List.mem_cons_of_mem _ hmem)
    have hnext {next : Place} (hr : d.Route .follow linkLimit here (before ++ [step]) next)
        (hf : d.isFolderAt next) :
        (∃ place, d.Route .follow linkLimit here (before ++ step :: rest) place ∧ d.isFolderAt place) ∨
          ∃ more c after place, step :: rest = more ++ .down c :: after ∧
            d.Brink here (before ++ more) c place := by
      rcases ih hr hf hrest with ⟨place, hr, hf⟩ | ⟨more, c, after, place, rfl, hbrink⟩
      · exact .inl ⟨place, by simpa using hr, hf⟩
      · exact .inr ⟨step :: more, c, after, place, rfl, by simpa using hbrink⟩
    cases step with
    | stay => exact hnext (h.append hf (by simp) (by simp) fun _ => .stay .done) hf
    | slash => exact hnext (h.append_slash hf) hf
    | up => exact absurd List.mem_cons_self hup
    | down n =>
      by_cases hn : ∃ next, d.Route .follow linkLimit here (before ++ [.down n]) next ∧ d.isFolderAt next
      · obtain ⟨next, hr, hf⟩ := hn
        exact hnext hr hf
      · refine .inr ⟨[], n, rest, home, rfl, hd, hf, by simpa using h, fun {place} hr => ?_⟩
        rw [List.append_nil] at hr
        simpa using fun hf => hn ⟨place, hr, hf⟩

theorem Route.item?_down (h : d.Route final links here (.down n :: rest) place) :
    (d.item? (here ++ [n])).isSome := by
  cases h with
  | folder _ _ hi _ => simp [hi]
  | link _ _ hi _ _ _ => simp [hi]
  | leaf _ hi _ => simp [hi]

theorem Route.item?_next {links' : Nat} (h : d.Route final links here (before ++ .down n :: rest) place)
    (hr : d.Route .follow links' here before folder) : (d.item? (folder ++ [n])).isSome := by
  obtain ⟨mid, _, -, hmid, hlast, -⟩ := h.split (by simp)
  obtain rfl := hmid.unique hr
  exact hlast.item?_down

-- ---------------------------------------------------------------------------
-- Growth at the brink
-- ---------------------------------------------------------------------------

theorem WellFormed.item?_at_or_below (hd : d.WellFormed) (h : d.item? root = none) (hq : root <+: q) :
    d.item? q = none := by
  obtain ⟨below, rfl⟩ := hq
  by_cases hb : below = []
  · simpa [hb] using h
  · exact hd.item?_below (by simp [isFolderAt, h]) hb

theorem WellFormed.isFolderAt_of_link (hd : d.WellFormed) (h : d.isLinkAt (place ++ [n])) :
    d.isFolderAt place := by
  obtain ⟨id, hi⟩ := leaf_of_link h
  exact hd.parents (n := n) (by simp [hi])

theorem Grown.within_of_leaf (h : Grown root d d') (hi : d.item? root = some (.leaf id)) : d'.Within d := by
  have hitem {q item} (hq : d'.item? q = some item) : d.item? q = some item := by
    cases hold : d.item? q with
    | some old => rw [← hq, h.within.item hold]
    | none =>
      obtain ⟨⟨below, rfl⟩, -⟩ := h.added hq hold
      by_cases hb : below = []
      · simp [hb, hi] at hold
      · rw [h.tree.item?_below (isFolderAt_of_leaf (h.within.item hi)) hb] at hq
        cases hq
  exact ⟨hitem, fun hq => (h.within.node (hitem hq)).symm⟩

theorem Grown.not_link (h : Grown root d d') (hd : d.WellFormed) (hroot : d.item? root = none)
    (hq : root <+: q) : d'.isLinkAt q = false := by
  cases hi : d'.item? q with
  | none => simp [isLinkAt, node?, hi]
  | some item => exact (h.added hi (hd.item?_at_or_below hroot hq)).2

/-- Among new entries there is no link, so without `..` a way goes down by the names that it spells. -/
theorem Grown.lands (h : Grown root d d') (hd : d.WellFormed) (hroot : d.item? root = none)
    (hr : d'.Route final links here rest place) (hhere : root <+: here) (hup : .up ∉ rest) :
    place = here ++ Step.names rest := by
  induction hr with
  | done => exact (List.append_nil _).symm
  | stay _ ih => exact ih hhere (by simpa using hup)
  | slash _ ih => exact ih hhere (by simpa using hup)
  | up _ _ => exact absurd List.mem_cons_self hup
  | folder _ _ _ _ ih =>
    rw [ih (hhere.trans (List.prefix_append _ _)) (by simpa using hup), Step.names_down, List.append_assoc]
    rfl
  | @link _ here n _ _ _ _ _ _ hi hl _ _ _ =>
    have hlink := h.not_link hd hroot (hhere.trans (List.prefix_append here [n]))
    simp [isLinkAt, node?_of_leaf hi, hl, Node.isLink] at hlink
  | leaf _ _ _ => rfl

theorem Brink.free_or_leaf (hb : d.Brink here before c home) :
    d.item? (home ++ [c]) = none ∨ ∃ id, d.item? (home ++ [c]) = some (.leaf id) := by
  cases hi : d.item? (home ++ [c]) with
  | none => exact .inl rfl
  | some item =>
    cases item with
    | leaf id => exact .inr ⟨id, rfl⟩
    | folder mode =>
      have hsize := (hb.tree.names hi c (by simp)).2
      have hto := hb.stop (hb.home.append hb.folder (by simp) (by simp) fun _ =>
        .folder (by simp) hsize hi .done)
      simp [isFolderAt, hi] at hto

theorem Brink.lands (hb : d.Brink here before c home) (hfree : d.item? (home ++ [c]) = none)
    (hg : Grown (home ++ [c]) d d') (h : d'.Route final linkLimit here (before ++ .down c :: rest) place)
    (hup : .up ∉ rest) : place = home ++ [c] ++ Step.names rest := by
  obtain ⟨mid, fewer, -, hmid, hlast, -⟩ := h.split (by simp)
  obtain rfl := hmid.unique (hb.home.within hg.within)
  cases hlast with
  | folder _ _ _ hr => exact hg.lands hb.tree hfree hr List.prefix_rfl hup
  | @link _ _ _ id target _ _ _ _ hi hl _ _ =>
    have hlink := hg.not_link hb.tree hfree List.prefix_rfl
    simp [isLinkAt, node?_of_leaf hi, hl, Node.isLink] at hlink
  | leaf _ _ _ => exact (List.append_nil _).symm

theorem Brink.beyond (hb : d.Brink here before c home)
    (hg : Grown (home ++ [c]) d d') (h : d'.Route final linkLimit here (before ++ .down c :: rest) place)
    (hne : rest ≠ []) (hup : .up ∉ rest) :
    d.item? (home ++ [c]) = none ∧ place = home ++ [c] ++ Step.names rest := by
  rcases hb.free_or_leaf with hfree | ⟨id, hi⟩
  · exact ⟨hfree, hb.lands hfree hg h hup⟩
  · -- A leaf leads on only as a link, and then its folder was reached before.
    exfalso
    have hold := hg.within_of_leaf hi
    obtain ⟨mid, fewer, -, hmid, hlast, -⟩ := h.split (by simp)
    obtain rfl := hmid.unique (hb.home.within hg.within)
    have hwhole : d.Route final linkLimit here ((before ++ [.down c]) ++ rest) place := by
      simpa using h.within hold
    have hpart : d.Route final fewer mid ([.down c] ++ rest) place := hlast.within hold
    obtain ⟨next, _, -, hto, -, -⟩ := hwhole.split hne
    obtain ⟨next', _, -, hstep', -, hfolder⟩ := hpart.split hne
    obtain ⟨_, _, -, hhome, hstep, -⟩ := hto.split (by simp)
    obtain rfl := hhome.unique hb.home
    obtain rfl := hstep.unique hstep'
    have hf := hfolder hb.tree hb.folder
    simp [hb.stop hto] at hf

/-- Wherever the way is cut in front of a name, the folder there was reached before, or is beyond the brink. -/
theorem Brink.cut (hb : d.Brink here before c home) (hg : Grown (home ++ [c]) d d')
    (hcut : front ++ .down n :: post = before ++ .down c :: rest) (hup : .up ∉ rest)
    (hr : d'.Route .follow linkLimit here front place) (hf : d'.isFolderAt place) :
    (∃ more, before = front ++ more ∧ .down n :: post = more ++ .down c :: rest ∧
        d.Route .follow linkLimit here front place) ∨
      d.item? (home ++ [c]) = none ∧ ∃ more, front = before ++ .down c :: more ∧
        place = home ++ [c] ++ Step.names more := by
  rcases List.append_eq_append_iff.mp hcut with ⟨more, rfl, h⟩ | ⟨more, rfl, h⟩
  · refine .inl ⟨more, rfl, h, ?_⟩
    have hhome := hb.home
    by_cases hmore : more = []
    · subst hmore
      rw [List.append_nil] at hhome
      rwa [hr.unique (hhome.within hg.within)]
    · obtain ⟨mid, _, -, hmid, -, -⟩ := hhome.split hmore
      rwa [hr.unique (hmid.within hg.within)]
  · cases more with
    | nil =>
      refine .inl ⟨[], by simp, h.symm, ?_⟩
      rw [List.append_nil] at hr ⊢
      rw [hr.unique (hb.home.within hg.within)]
      exact hb.home
    | cons step more =>
      obtain ⟨rfl, hrest⟩ := List.cons.inj h
      have hmore : .up ∉ more ++ [.slash] := by
        rw [hrest] at hup
        simpa using fun h => hup (List.mem_append_left _ h)
      have hr' : d'.Route .follow linkLimit here (before ++ .down c :: (more ++ [.slash])) place := by
        simpa using hr.append_slash hf
      obtain ⟨hnone, hplace⟩ := hb.beyond hg hr' (by simp) hmore
      rw [Step.names_append] at hplace
      exact .inr ⟨hnone, more, rfl, hplace.trans (congrArg _ (List.append_nil _))⟩

-- ---------------------------------------------------------------------------
-- Calls at the brink
-- ---------------------------------------------------------------------------

theorem Brink.makeFolder (hb : d.Brink here before c home) (hg : Grown (home ++ [c]) d d')
    (hstart : d.start p = here) (hp : p.bare <+: before ++ .down c :: rest) (hup : .up ∉ rest)
    (hm : d'.makeFolder p = .ok d'') : ∃ later, p.bare = before ++ .down c :: later ∧
      d'.item? (home ++ [c] ++ Step.names later) = none ∧
      d'' = d'.setItem (home ++ [c] ++ Step.names later) (.folder newFolderMode) ∧
      Grown (home ++ [c] ++ Step.names later) d' d'' := by
  obtain ⟨folder, n, slash, hf, hn, hi, rfl⟩ := makeFolder_ok.mp hm
  obtain ⟨front, hs, hr, hfolder⟩ := folderOf_name hf
  rw [Within.start hg.cwd, hstart] at hr
  have hnew : Grown (folder ++ [n]) d' (d'.setItem (folder ++ [n]) (.folder newFolderMode)) :=
    .setFolder hg.tree hfolder ⟨plain_of_folderOf hf, hn⟩ hi _
  have hbare := Path.bare_of_steps _ hs
  obtain ⟨post, hpost⟩ := hp
  rw [hbare, List.append_assoc, List.singleton_append] at hpost
  -- The folder stands at `home ++ [c] ++ names later` as soon as that is the place where the name is free.
  have hplace (later : List Step) (hlater : p.bare = before ++ .down c :: later)
      (heq : folder ++ [n] = home ++ [c] ++ Step.names later) : ∃ later, p.bare = before ++ .down c :: later ∧
        d'.item? (home ++ [c] ++ Step.names later) = none ∧
        d'.setItem (folder ++ [n]) (.folder newFolderMode) =
          d'.setItem (home ++ [c] ++ Step.names later) (.folder newFolderMode) ∧
        Grown (home ++ [c] ++ Step.names later) d' (d'.setItem (folder ++ [n]) (.folder newFolderMode)) :=
    ⟨later, hlater, heq ▸ hi, heq ▸ rfl, heq ▸ hnew⟩
  rcases hb.cut hg hpost hup hr hfolder with ⟨more, hbefore, hmore, hr'⟩ | ⟨-, more, hfront, hfolder⟩
  · have hhome := hb.home
    cases more with
    | nil =>
      obtain ⟨hname, -⟩ := List.cons.inj hmore
      cases hname
      rw [List.append_nil] at hbefore
      subst hbefore
      obtain rfl := hr'.unique hhome
      exact hplace [] hbare (List.append_nil _).symm
    | cons step more =>
      obtain ⟨rfl, -⟩ := List.cons.inj hmore
      rw [hbefore] at hhome
      obtain ⟨item, hitem⟩ := Option.isSome_iff_exists.mp (hhome.item?_next hr')
      simp [hg.within.item hitem] at hi
  · refine hplace (more ++ [.down n]) (by rw [hbare, hfront]; simp) ?_
    rw [hfolder, Step.names_append, List.append_assoc]
    rfl

/-- All that is made for the sake of the path are folders on its way. -/
theorem Brink.makeFolders (hb : d.Brink here before c home)
    (hg : Grown (home ++ [c]) d d') (hstart : d.start p = here) (hp : p.bare <+: before ++ .down c :: rest)
    (hup : .up ∉ rest) : Grown (home ++ [c]) d (d'.makeFolders p).2 ∧ ∀ q, d'.item? q = none →
      (d'.makeFolders p).2.item? q = none ∨ (d'.makeFolders p).2.item? q = some (.folder newFolderMode) ∧
        q <+: home ++ [c] ++ Step.names rest := by
  refine makeFoldersFrom_keeps (P := fun made => Grown (home ++ [c]) d made ∧ ∀ q, d'.item? q = none →
    made.item? q = none ∨ made.item? q = some (.folder newFolderMode) ∧ q <+: home ++ [c] ++ Step.names rest)
    (fun a ha hne made made' hmade hok => ?_) ⟨hg, fun q hq => .inl hq⟩
  obtain ⟨hgrown, hways⟩ := hmade
  obtain ⟨habs, hbare⟩ := Path.of_mem_ancestors ha hne
  have hstart' : d.start a = here := (start_eq rfl habs).trans hstart
  obtain ⟨later, hlater, -, rfl, hnew⟩ := hb.makeFolder hgrown hstart' (hbare.trans hp) hup hok
  refine ⟨hgrown.trans hnew (List.prefix_append _ _), fun q hq => ?_⟩
  rw [item?_setItem _ _ _ _ (by simp)]
  split
  · rename_i heq
    have hrest : later <+: rest := by simpa [hlater] using hbare.trans hp
    exact .inr ⟨rfl, heq ▸ (List.prefix_append_right_inj _).mpr (hrest.filterMap _)⟩
  · exact hways q hq

theorem Brink.locate (hb : d.Brink here before c home) (hg : Grown (home ++ [c]) d d') (hstart : d.start p = here)
    (hp : p.bare = before ++ .down c :: rest) (hne : rest ≠ []) (hup : .up ∉ rest) :
    (∀ folder n, d'.locate .create p = .ok (.free folder n) → d.item? (home ++ [c]) = none ∧
      folder ++ [n] = home ++ [c] ++ Step.names rest ∧ n.CanStand) ∧
    ∀ place, d'.locate .create p = .ok (.found place) → d.item? (home ++ [c]) = none ∧
      place = home ++ [c] ++ Step.names rest := by
  refine ⟨fun folder n hl => ?_, fun place hl => ?_⟩
  · obtain ⟨hc, hend⟩ := locate_free hl
    obtain ⟨front, m, mid, hs, hr, hlast⟩ := hend.last
    rw [Within.start hg.cwd, hstart] at hr
    have hmid : d'.isFolderAt mid := by
      rcases hlast with ⟨rfl, -⟩ | hlink
      · exact hend.isFolder
      · exact hg.tree.isFolderAt_of_link hlink
    have hcut := (Path.bare_of_steps false hs).symm.trans hp
    rcases hb.cut hg hcut hup hr hmid with ⟨more, -, hmore, -⟩ | ⟨hnone, more, rfl, rfl⟩
    · exact absurd (congrArg List.length hmore) (by have := List.length_pos_iff.mpr hne; simp; omega)
    · rcases hlast with ⟨rfl, rfl⟩ | hlink
      · obtain rfl : more ++ [.down m] = rest := by simpa using hcut
        refine ⟨hnone, ?_, Path.plain_of_down (checkPath_ok hc).1 (by simp [hs]), hend.size⟩
        rw [Step.names_append, List.append_assoc]
        rfl
      · have hroot : home ++ [c] <+: home ++ [c] ++ Step.names more ++ [m] :=
          (List.prefix_append _ _).trans (List.prefix_append _ _)
        rw [hg.not_link hb.tree hnone hroot] at hlink
        cases hlink
  · obtain ⟨-, hr⟩ := locate_found.mp hl
    rw [Within.start hg.cwd, hstart] at hr
    rcases p.steps_eq with hs | hs
    · rw [hs, hp] at hr
      exact hb.beyond hg hr hne hup
    · rw [hs, hp, List.append_assoc, List.cons_append] at hr
      obtain ⟨hnone, hplace⟩ := hb.beyond hg hr (by simp) (by simp [hup])
      rw [Step.names_append] at hplace
      exact ⟨hnone, hplace.trans (congrArg _ (List.append_nil _))⟩

theorem Brink.openWrite {opening : Opening} (hb : d.Brink here before c home)
    (hg : Grown (home ++ [c]) d d') (hstart : d.start p = here) (hp : p.bare = before ++ .down c :: rest)
    (hne : rest ≠ []) (hup : .up ∉ rest) (ho : d'.openWrite p opening = .ok (place, d'')) :
    Grown (home ++ [c]) d d'' ∧ d.item? place = none := by
  obtain ⟨hfree, hfound⟩ := hb.locate hg hstart hp hne hup
  refine hg.openWrite ho (fun folder n hl => ?_) fun hl => ?_
  · obtain ⟨-, heq, hn⟩ := hfree folder n hl
    exact ⟨heq ▸ List.prefix_append _ _, hn⟩
  · obtain ⟨hnone, rfl⟩ := hfound place hl
    exact hb.tree.item?_at_or_below hnone (List.prefix_append _ _)

end Disk

end SafeFiles
