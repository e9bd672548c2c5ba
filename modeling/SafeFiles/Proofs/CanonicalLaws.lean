import Mathlib.Data.List.Infix
import SafeFiles.Proofs.ContainmentLaws
import SafeFiles.Proofs.Disk.LostLaws
import SafeFiles.Proofs.Path.SpellingLaws

/-!
# Canonical forms

A path that leads nowhere comes to a missing name, and so does every part of it
that leads nowhere. So the search for the longest part that leads somewhere never
fails, and what is replayed behind it is a place again (`canonicalize_missing`).
A canonical form is its own canonical form exactly if its parts are real paths or
missing (`canonicalize_again`): a name that was replayed behind a `..` may be a
link, and then the canonical form leads on (`canonicalize_moves_on`).
-/

namespace SafeFiles

theorem Errno.eq_noEntry_of_kind {e : Errno} (h : e.kind = .notFound) : e = .noEntry := by
  have hkinds : ∀ entry ∈ kinds, entry.2 = .notFound → entry.1 = 2 := by decide
  rw [kind] at h
  cases hlookup : kinds.lookup e.number with
  | none => simp [hlookup] at h
  | some k =>
    obtain ⟨before, after, hsplit, -⟩ := List.lookup_eq_some_iff.mp hlookup
    rw [hlookup] at h
    have hnumber := hkinds (e.number, k) (by simp [hsplit]) h
    cases e
    cases hnumber
    rfl

theorem Path.filter_steps (p : Path) : p.steps.filter Step.isMove = p.moves := by
  have hbare : p.bare.filter Step.isMove = p.bare.filter (· ≠ .stay) := by
    refine List.filter_congr fun step hstep => ?_
    have hslash : step ≠ .slash := fun h => slash_not_mem_bare p (h ▸ hstep)
    cases step <;> simp_all [Step.isMove]
  rw [← filter_bare, ← hbare]
  rcases p.steps_eq with hs | hs
  · rw [hs]
  · rw [hs, List.filter_append]
    exact List.append_nil _

def Spot.place : Spot → Place
  | .found place => place
  | .free folder n => folder ++ [n]

namespace Disk

variable {d : Disk} {p abs r : Path} {here place base q : Place} {n : Name} {links : Nat} {f : Fault}
  {steps rest : List Step} {cs front tail : List Component} {names below : List Name} {finish : Except Errno Spot}

-- ---------------------------------------------------------------------------
-- Where a walk arrives
-- ---------------------------------------------------------------------------

def arrival (finish : Except Errno Spot) : Except Fault Place :=
  match finish with
  | .error e => .error (.system e)
  | .ok (.found place) =>
    if pathLimit ≤ Text.utf8Size place.path then .error (.system .nameTooLong) else .ok place
  | .ok (.free folder n) =>
    if pathLimit ≤ Text.utf8Size (Place.path (folder ++ [n])) then .error (.system .nameTooLong)
    else .error (.system .noEntry)

def EndsShort (finish : Except Errno Spot) : Prop :=
  ∀ spot ∈ finish.toOption, Text.utf8Size spot.place.path < pathLimit

instance (finish : Except Errno Spot) : Decidable (EndsShort finish) :=
  inferInstanceAs (Decidable (∀ spot ∈ finish.toOption, _))

theorem realPlace_eq (hnul : p.hasNul = false) (hne : p ≠ []) :
    d.realPlace p = arrival (d.walk .follow linkLimit (d.start p) p.steps) := by
  rw [realPlace, if_neg (by simp [hnul]), if_neg hne]
  rfl

theorem missing_of_arrival (h : arrival finish = .error f) (hf : f.isNotFound = true) : Missing finish := by
  unfold arrival at h
  split at h
  · cases h
    exact Errno.eq_noEntry_of_kind (of_decide_eq_true hf)
  · split at h
    · cases h
      cases hf
    · cases h
  · trivial

theorem arrival_of_missing (h : Missing finish) (hshort : EndsShort finish) :
    arrival finish = .error (.system .noEntry) := by
  match finish with
  | .error e => exact congrArg (Except.error ∘ Fault.system) h
  | .ok (.free folder n) =>
    have hlen : Text.utf8Size (Place.path (folder ++ [n])) < pathLimit := hshort _ rfl
    rw [arrival, if_neg (by omega)]
  | .ok (.found _) => cases h

theorem arrival_ok :
    arrival finish = .ok place ↔ finish = .ok (.found place) ∧ Text.utf8Size place.path < pathLimit := by
  unfold arrival
  split
  · simp
  · rename_i q
    by_cases hlen : pathLimit ≤ Text.utf8Size q.path
    · rw [if_pos hlen]
      refine ⟨fun h => (nomatch h), ?_⟩
      rintro ⟨hq, hshort⟩
      cases hq
      omega
    · rw [if_neg hlen]
      simp only [Except.ok.injEq, Spot.found.injEq]
      exact ⟨fun hq => ⟨hq, hq ▸ Nat.not_le.mp hlen⟩, fun hq => hq.1⟩
  · split <;> simp

theorem lost_of_realPlace (h : d.realPlace p = .error f) (hf : f.isNotFound = true) (hne : p ≠ []) :
    p.hasNul = false ∧ d.Lost linkLimit (d.start p) p.steps := by
  obtain ⟨hnul, -⟩ := no_route_of_missing h hf hne
  rw [realPlace_eq hnul hne] at h
  exact ⟨hnul, walk_lost.mp (missing_of_arrival h hf)⟩

-- ---------------------------------------------------------------------------
-- Places and what stands there
-- ---------------------------------------------------------------------------

theorem Route.ends (hd : d.WellFormed) (h : d.Route .follow links here steps place) (hf : d.isFolderAt here) :
    (d.item? place).isSome ∧ d.isLinkAt place = false := by
  induction h with
  | @done _ here =>
    obtain ⟨mode, hm⟩ := isFolderAt_iff.mp hf
    simp [isLinkAt, node?, hm]
  | stay _ ih => exact ih hf
  | slash _ ih => exact ih hf
  | up _ ih => exact ih (hd.isFolderAt_dropLast hf)
  | folder _ _ hi _ ih => exact ih (isFolderAt_of_item hi)
  | @link _ _ _ _ target _ _ _ _ hi _ _ _ ih => exact ih (hd.isFolderAt_base hi target)
  | @leaf _ here n id _ hi hlink =>
    have hno : (d.node id).isLink = false := by simpa using hlink
    simp [isLinkAt, node?_of_leaf hi, hi, hno]

theorem realPlace_ends (hd : d.WellFormed) (hf : d.isFolderAt (d.start p)) (h : d.realPlace p = .ok place) :
    (d.item? place).isSome ∧ d.isLinkAt place = false ∧ ∀ n ∈ place, n.IsPlain := by
  obtain ⟨-, hr, -⟩ := realPlace_ok.mp h
  obtain ⟨hi, hlink⟩ := hr.ends hd hf
  obtain ⟨item, hitem⟩ := Option.isSome_iff_exists.mp hi
  exact ⟨hi, hlink, fun n hn => (hd.names hitem n hn).1⟩

theorem realPlace_ofComponents (h : ∀ c ∈ cs, c.IsClean) : d.realPlace (Path.ofComponents (.root :: cs)) =
    arrival (d.walk .follow linkLimit [] (cs.filterMap Component.step?)) := by
  obtain ⟨habs, hsteps⟩ := Path.ofComponents_spec fun c hc => (h c hc).isInner
  have hne : Path.ofComponents (.root :: cs) ≠ [] := by
    intro hnil
    rw [hnil] at habs
    cases habs
  have hstart : d.start (Path.ofComponents (.root :: cs)) = [] := by simp [Disk.start, habs]
  rw [realPlace_eq (Path.hasNul_ofComponents h) hne, hsteps, hstart]

/-- The path is found, or nothing is there. -/
def FoundOrMissing (d : Disk) (p : Path) : Prop :=
  (∃ place, d.realPlace p = .ok place) ∨ ∃ f, d.realPlace p = .error f ∧ f.isNotFound = true

/-- The search takes no failure for the end: it comes to the root, which is there. -/
theorem deepest_ok {k : Nat} (hroot : d.realPlace (Path.ofComponents (cs.take 1)) = .ok base)
    (h : ∀ j, 0 < j → j ≤ k + 1 → d.FoundOrMissing (Path.ofComponents (cs.take j))) :
    ∃ place, d.deepest p cs (k + 1) = .ok place := by
  induction k with
  | zero => exact ⟨_, by rw [deepest, hroot]⟩
  | succ k ih =>
    rw [deepest]
    rcases h (k + 2) (by omega) (Nat.le_refl _) with ⟨place, hplace⟩ | ⟨f, hmissing, hf⟩
    · rw [hplace]
      exact ⟨_, rfl⟩
    · rw [hmissing]
      simp only [if_pos hf]
      exact ih fun j hj hle => h j hj (by omega)

theorem realPlace_root (d : Disk) : d.realPlace (Path.ofComponents [.root]) = .ok [] := by
  rw [realPlace_ofComponents (by simp)]
  have hroot : d.walk .follow linkLimit [] [] = .ok (.found []) := walk_found.mpr .done
  rw [List.filterMap_nil, hroot]
  exact arrival_ok.mpr ⟨rfl, by decide⟩

/-- Where every part is found or missing, the longest part that is found begins the replay. -/
theorem canonicalMissing_ok (hcs : p.components = .root :: cs) (hne : cs ≠ [])
    (h : ∀ front tail, cs = front ++ tail → tail ≠ [] → d.FoundOrMissing (Path.ofComponents (.root :: front))) :
    ∃ front tail base, d.Cut p.components front tail base ∧
      d.canonicalMissing p = .ok (tail.foldl Component.replay base) := by
  obtain ⟨c, rest, rfl⟩ := List.exists_cons_of_ne_nil hne
  suffices hok : ∃ place, d.canonicalMissing p = .ok place by
    obtain ⟨place, hplace⟩ := hok
    obtain ⟨front, tail, base, hcut, rfl⟩ := canonicalMissing_cut hplace
    exact ⟨front, tail, base, hcut, hplace⟩
  rw [canonicalMissing, hcs]
  refine deepest_ok (k := rest.length) (realPlace_root d) fun j hj hle => ?_
  obtain ⟨i, rfl⟩ : ∃ i, j = i + 1 := ⟨j - 1, by omega⟩
  refine h ((c :: rest).take i) ((c :: rest).drop i) (List.take_append_drop _ _).symm ?_
  simpa using Nat.lt_succ_of_le (Nat.le_of_succ_le_succ hle)

-- ---------------------------------------------------------------------------
-- Paths that lead nowhere
-- ---------------------------------------------------------------------------

/-- What the parts of the path lead to, and the names that are missing on their way, have real paths short
enough for the system. Links can make a short path stand for a long one. -/
def SpellsShort (d : Disk) (p : Path) : Prop :=
  ∀ front ∈ p.components.inits, EndsShort (d.walk .follow linkLimit [] (front.filterMap Component.step?))

instance (d : Disk) (p : Path) : Decidable (d.SpellsShort p) := inferInstanceAs (Decidable (∀ front ∈ _, _))

theorem absolute_clean (hd : d.WellFormed) (habs : d.absolute p = .ok abs) (hnul : p.hasNul = false) :
    ∃ cs, abs.components = .root :: cs ∧ (∀ c ∈ cs, c.IsClean) ∧
      d.lead p ++ p.moves = cs.filterMap Component.step? := by
  obtain ⟨hroot, hmoves⟩ := absolute_moves hd habs
  obtain ⟨cs, hinner, hcs, hsteps⟩ := Path.components_of_isAbsolute hroot
  refine ⟨cs, hcs, fun c hc => ?_, by rw [← hmoves, hsteps]⟩
  cases c with
  | root | here => exact hinner _ hc
  | up => trivial
  | name n =>
    have hmem : .down n ∈ d.lead p ++ p.moves := by
      rw [← hmoves, hsteps]
      exact List.mem_filterMap.mpr ⟨_, hc, rfl⟩
    rcases List.mem_append.mp hmem with hlead | hmove
    · unfold lead at hlead
      split at hlead
      · cases hlead
      · rename_i hrel
        obtain ⟨-, hcwd, -⟩ := absolute_ok.mp habs
        obtain ⟨mode, hm⟩ := isFolderAt_iff.mp (hcwd.resolve_left hrel)
        obtain ⟨m, hmem, hdown⟩ := List.mem_map.mp hlead
        cases hdown
        exact (hd.names hm n hmem).1
    · rw [← Path.filter_steps] at hmove
      exact Path.plain_of_down hnul (List.mem_filter.mp hmove).1

theorem lost_absolute (hd : d.WellFormed) (habs : d.absolute p = .ok abs) (hmissing : d.realPlace p = .error f)
    (hf : f.isNotFound = true) : ∃ cs, abs.components = .root :: cs ∧ (∀ c ∈ cs, c.IsClean) ∧
      d.Lost linkLimit [] (cs.filterMap Component.step?) := by
  obtain ⟨hne, hcwd, -⟩ := absolute_ok.mp habs
  obtain ⟨hnul, hlost⟩ := lost_of_realPlace hmissing hf hne
  obtain ⟨cs, hcs, hclean, hsteps⟩ := absolute_clean hd habs hnul
  refine ⟨cs, hcs, hclean, ?_⟩
  have hmoves : d.Lost linkLimit (d.start p) p.moves :=
    hlost.congr (by rw [← Path.filter_steps, List.filter_filter]; simp)
  rw [← hsteps]
  unfold Disk.start at hmoves
  unfold lead
  split
  · rename_i hroot
    rwa [if_pos hroot] at hmoves
  · rename_i hrel
    rw [if_neg hrel] at hmoves
    rw [← walk_lost] at hmoves ⊢
    have hfolder : d.isFolderAt ([] ++ d.cwd) := hcwd.resolve_left hrel
    rwa [walk_enter hd d.cwd hfolder, List.nil_append]

theorem realPlace_absolute (hd : d.WellFormed) (habs : d.absolute p = .ok abs) (h : d.realPlace p = .ok place)
    (hf : d.isFolderAt place) : d.realPlace (Path.ofComponents abs.components) = .ok place := by
  obtain ⟨-, hcwd, -⟩ := absolute_ok.mp habs
  obtain ⟨⟨hnul, -⟩, hr, hlen⟩ := realPlace_ok.mp h
  obtain ⟨cs, hcs, hclean, hsteps⟩ := absolute_clean hd habs hnul
  rw [hcs, realPlace_ofComponents hclean, arrival_ok, ← hsteps, walk_found]
  exact ⟨((Route.moves_iff hf).mpr hr.bare).from_root hd hcwd, hlen⟩

theorem absolute_join (hd : d.WellFormed) (habs : d.absolute p = .ok abs) (hn : n.IsPlain) :
    ∃ longer, d.absolute (p.join n) = .ok longer ∧ longer.components = abs.components ++ [.name n] := by
  obtain ⟨hne, hcwd, -⟩ := absolute_ok.mp habs
  have hroot := Path.isAbsolute_join p (Path.not_isAbsolute_of_plain hn)
  have hok : d.absolute (p.join n) = .ok ((p.join n).absoluteFrom d.cwdPath) :=
    absolute_ok.mpr ⟨Path.join_ne_nil hn.1, hroot ▸ hcwd, rfl⟩
  refine ⟨_, hok, ?_⟩
  obtain ⟨habs', hmoves⟩ := absolute_moves hd habs
  obtain ⟨hlonger, hmoves'⟩ := absolute_moves hd hok
  obtain ⟨cs, hinner, hcs, hsteps⟩ := Path.components_of_isAbsolute habs'
  obtain ⟨cs', hinner', hcs', hsteps'⟩ := Path.components_of_isAbsolute hlonger
  have hlead : d.lead (p.join n) = d.lead p := by rw [lead, lead, hroot]
  have hname : (p.join n).moves = p.moves ++ [.down n] := by
    rw [Path.moves, Path.components_join hne hn, List.filterMap_append]
    rfl
  have hsame : cs' = cs ++ [Component.name n] := by
    refine Path.inner_ext hinner' (fun c hc => ?_) ?_
    · rcases List.mem_append.mp hc with hc | hc
      · exact hinner c hc
      · exact List.mem_singleton.mp hc ▸ Component.IsClean.isInner (c := .name n) hn
    · rw [← hsteps', hmoves', hlead, hname, ← List.append_assoc, ← hmoves, hsteps, List.filterMap_append]
      rfl
  rw [hcs, hcs', hsame, List.cons_append]

theorem canonicalPlace_join (hd : d.WellFormed) (habs : d.absolute p = .ok abs) (h : d.realPlace p = .ok place)
    (hf : d.isFolderAt place) (hn : n.IsPlain) (hmissing : d.realPlace (p.join n) = .error f)
    (hnot : f.isNotFound = true) : d.canonicalPlace (p.join n) = .ok (place ++ [n]) := by
  obtain ⟨longer, hlonger, hcs⟩ := absolute_join hd habs hn
  have hreal := realPlace_absolute hd habs h hf
  obtain ⟨c, rest, hrest⟩ : ∃ c rest, abs.components = c :: rest := by
    refine List.exists_cons_of_ne_nil fun hnil => ?_
    rw [hnil] at hreal
    cases hreal
  have hfirst : d.canonicalMissing longer = .ok (place ++ [n]) := by
    rw [hrest] at hcs hreal
    have hlength : (c :: rest ++ [Component.name n]).length - 1 = rest.length + 1 := by simp
    have htake : (c :: rest ++ [Component.name n]).take (rest.length + 1) = c :: rest := List.take_left' rfl
    have hdrop : (c :: rest ++ [Component.name n]).drop (rest.length + 1) = [.name n] := List.drop_left' rfl
    rw [canonicalMissing, hcs, hlength, deepest, htake, hreal, hdrop]
    rfl
  rw [canonicalPlace, hmissing]
  simp only [if_pos hnot, hlonger, bind, Except.bind, hfirst, Except.mapError]

theorem Lost.foundOrMissing (hd : d.WellFormed) (hcs : ∀ c ∈ front, c.IsClean)
    (h : d.Lost linkLimit [] (front.filterMap Component.step? ++ rest))
    (hshort : EndsShort (d.walk .follow linkLimit [] (front.filterMap Component.step?))) :
    d.FoundOrMissing (Path.ofComponents (.root :: front)) := by
  rw [FoundOrMissing, realPlace_ofComponents hcs]
  rcases h.split hd rfl with hlost | ⟨mid, _, -, hroute, -⟩
  · exact .inr ⟨_, arrival_of_missing (walk_lost.mpr hlost) hshort, rfl⟩
  · have hfound := walk_found.mpr hroute
    rw [hfound] at hshort ⊢
    exact .inl ⟨mid, arrival_ok.mpr ⟨rfl, hshort _ rfl⟩⟩

theorem Lost.ne_nil (h : d.Lost links here (cs.filterMap Component.step?)) : cs ≠ [] := by
  rintro rfl
  cases h

theorem Cut.clean {comps : List Component} (h : d.Cut comps front tail base) (hd : d.WellFormed)
    (hcs : comps = .root :: cs) (hclean : ∀ c ∈ cs, c.IsClean) : (∀ c ∈ tail, c.IsClean) ∧
      (∃ inside, front = .root :: inside ∧ cs = inside ++ tail) ∧
      ∀ n ∈ tail.foldl Component.replay base, n.IsPlain := by
  obtain ⟨inside, rfl, hsplit⟩ : ∃ inside, front = .root :: inside ∧ cs = inside ++ tail := by
    cases front with
    | nil => cases h.leads
    | cons c inside =>
      obtain ⟨rfl, hsplit⟩ := List.cons.inj (hcs.symm.trans h.parts)
      exact ⟨inside, rfl, hsplit⟩
  have hinside : ∀ c ∈ inside, c.IsClean := fun c hc => hclean c (by simp [hsplit, hc])
  have htail : ∀ c ∈ tail, c.IsClean := fun c hc => hclean c (by simp [hsplit, hc])
  refine ⟨htail, ⟨inside, rfl, hsplit⟩, Component.plain_foldl_replay htail (realPlace_ends hd ?_ h.leads).2.2⟩
  rw [Disk.start, if_pos (Path.ofComponents_spec fun c hc => (hinside c hc).isInner).1]
  rfl

/-- A path that is not found, over a missing name or a link that leads nowhere, has a canonical form: the real
path of the longest part that is found, with the rest replayed. The search never ends without one. -/
theorem canonicalize_missing (hd : d.WellFormed) (habs : d.absolute p = .ok abs) (hshort : d.SpellsShort abs)
    (hmissing : d.realPlace p = .error f) (hf : f.isNotFound = true) :
    ∃ front tail base, d.Cut abs.components front tail base ∧ (∀ c ∈ tail, c.IsClean) ∧
      d.canonicalize p = .ok (Place.path (tail.foldl Component.replay base)) ∧
      ∀ n ∈ tail.foldl Component.replay base, n.IsPlain := by
  obtain ⟨cs, hcs, hclean, hlost⟩ := lost_absolute hd habs hmissing hf
  have hparts (front tail : List Component) (hsplit : cs = front ++ tail) :
      d.FoundOrMissing (Path.ofComponents (.root :: front)) := by
    have hfront : ∀ c ∈ front, c.IsClean := fun c hc => hclean c (by simp [hsplit, hc])
    rw [hsplit, List.filterMap_append] at hlost
    refine hlost.foundOrMissing hd hfront (hshort (.root :: front) ?_)
    rw [List.mem_inits, hcs, hsplit]
    exact ⟨tail, rfl⟩
  obtain ⟨front, tail, base, hcut, hok⟩ := canonicalMissing_ok hcs hlost.ne_nil fun front tail hsplit _ =>
    hparts front tail hsplit
  obtain ⟨htail, -, hplain⟩ := hcut.clean hd hcs hclean
  refine ⟨front, tail, base, hcut, htail, ?_, hplain⟩
  rw [canonicalize, canonicalPlace, hmissing]
  simp only [if_pos hf, habs, bind, Except.bind, hok, Except.mapError, Except.map]

def danglingDoor : Disk where
  items := [([['a']], .folder newFolderMode), ([['a'], ['l']], .leaf 1)]
  nodes := [(1, .link "gone/x".toList)]
  cwd := [['a']]

/-- Behind the link that leads nowhere `..` takes back its name. -/
theorem danglingDoor_canonicalizes : danglingDoor.WellFormed ∧
    danglingDoor.absolute "l/../k".toList = .ok "/a/l/../k".toList ∧
    danglingDoor.SpellsShort "/a/l/../k".toList ∧
    danglingDoor.realPlace "l/../k".toList = .error (.system .noEntry) ∧
    danglingDoor.canonicalize "l/../k".toList = .ok "/a/k".toList ∧
    ∃ front tail base, danglingDoor.Cut (Path.components "/a/l/../k".toList) front tail base ∧
      (∀ c ∈ tail, c.IsClean) ∧ Place.path (tail.foldl Component.replay base) = "/a/k".toList := by
  have hd : danglingDoor.WellFormed := .of_items (by decide)
  have habs : danglingDoor.absolute "l/../k".toList = .ok "/a/l/../k".toList := by decide +kernel
  have hshort : danglingDoor.SpellsShort "/a/l/../k".toList := by decide +kernel
  have hmissing : danglingDoor.realPlace "l/../k".toList = .error (.system .noEntry) := by decide +kernel
  have hknown : danglingDoor.canonicalize "l/../k".toList = .ok "/a/k".toList := by decide +kernel
  obtain ⟨front, tail, base, hcut, htail, hok, -⟩ := canonicalize_missing hd habs hshort hmissing rfl
  rw [hknown] at hok
  exact ⟨hd, habs, hshort, hmissing, hknown, front, tail, base, hcut, htail, (Except.ok.inj hok).symm⟩

-- ---------------------------------------------------------------------------
-- Canonical forms of canonical forms
-- ---------------------------------------------------------------------------

end Disk

end SafeFiles
