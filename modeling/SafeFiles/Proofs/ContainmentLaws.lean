import SafeFiles.Disk.Ensure
import SafeFiles.Proofs.GateLaws
import SafeFiles.Proofs.Path.ComponentLaws
import SafeFiles.Proofs.Tree.CopyLaws

/-!
# Answers about files that are not there yet

A path that leads nowhere is resolved as far as it leads somewhere, and the rest is
replayed (`Cut`). Once the missing folders have been made, the rest is walked. Both
come to the same place unless a name that is replayed behind a `..` is a link
(`Cut.lands`): names in front of any `..` are new, and what is new is no link. So
an answer about containment survives the making of the file (`isContained_touch`),
but not behind such a link (`isContained_changes`).
-/

namespace SafeFiles

namespace Disk

variable {d d' after : Disk} {p parent child folder : Path} {here mid place base q : Place} {n : Name}
  {links : Nat} {final : Final} {steps before rest front : List Step} {f : Fault} {x : Bool}

-- ---------------------------------------------------------------------------
-- Replayed routes
-- ---------------------------------------------------------------------------

/-- A route that meets no link goes where the components are replayed. -/
theorem Route.replay {cs : List Component} (hroot : ∀ c ∈ cs, c ≠ .root)
    (h : d.Route final links here (cs.filterMap Component.step?) place)
    (hno : ∀ pre n post, cs = pre ++ .name n :: post →
      d.isLinkAt (pre.foldl Component.replay here ++ [n]) = false) :
    place = cs.foldl Component.replay here := by
  induction cs generalizing here links with
  | nil =>
    cases h
    rfl
  | cons c cs ih =>
    have hroot' : ∀ c ∈ cs, c ≠ .root := fun c hc => hroot c (List.mem_cons_of_mem _ hc)
    have hno' : ∀ pre n post, cs = pre ++ .name n :: post →
        d.isLinkAt (pre.foldl Component.replay (c.replay here) ++ [n]) = false :=
      fun pre n post heq => hno (c :: pre) n post (by rw [heq]; rfl)
    cases c with
    | root => exact absurd rfl (hroot _ List.mem_cons_self)
    | here => exact ih hroot' h hno'
    | up =>
      cases h with
      | up hrest => exact ih hroot' hrest hno'
    | name n =>
      have hlink : d.isLinkAt (here ++ [n]) = false := hno [] n cs rfl
      generalize hsteps : (Component.name n :: cs).filterMap Component.step? = steps at h
      cases h with
      | folder _ _ _ hrest =>
        cases hsteps
        exact ih hroot' hrest hno'
      | link _ _ hi hl _ _ =>
        cases hsteps
        simp [isLinkAt, node?_of_leaf hi, hl, Node.isLink] at hlink
      | leaf _ _ _ =>
        obtain ⟨hname, hrest⟩ := List.cons.inj hsteps
        cases hname
        have hend : d.Route final links (here ++ [n]) (cs.filterMap Component.step?) (here ++ [n]) := by
          rw [hrest]
          exact .done
        exact ih hroot' hend hno'
      | _ => cases hsteps

-- ---------------------------------------------------------------------------
-- Real places
-- ---------------------------------------------------------------------------

theorem realPlace_ok : d.realPlace p = .ok place ↔ (p.hasNul = false ∧ p ≠ []) ∧
    d.Route .follow linkLimit (d.start p) p.steps place ∧ Text.utf8Size place.path < pathLimit := by
  rw [realPlace, ← walk_found]
  by_cases hnul : p.hasNul = true
  · simp [hnul]
  by_cases hempty : p = []
  · simp [hempty, Path.hasNul]
  rw [if_neg hnul, if_neg hempty]
  cases hw : d.walk .follow linkLimit (d.start p) p.steps with
  | error e => simp
  | ok spot =>
    cases spot with
    | found q =>
      by_cases hlen : pathLimit ≤ Text.utf8Size q.path
      · simp only [if_pos hlen]
        constructor
        · intro h
          cases h
        · rintro ⟨-, hq, hshort⟩
          cases hq
          omega
      · simp only [if_neg hlen, Except.ok.injEq, Spot.found.injEq]
        exact ⟨fun h => ⟨⟨by simpa using hnul, hempty⟩, h, h ▸ by omega⟩, fun h => h.2.1⟩
    | free _ _ => simp only; split <;> simp

theorem no_route_of_missing (h : d.realPlace p = .error f) (hf : f.isNotFound = true) (hne : p ≠ []) :
    p.hasNul = false ∧ ∀ q, ¬ d.Route .follow linkLimit (d.start p) p.steps q := by
  rw [realPlace] at h
  split at h
  · cases h
    cases hf
  rename_i hnul
  refine ⟨by simpa using hnul, fun q hr => ?_⟩
  simp only [walk_found.mpr hr] at h
  split at h
  · cases h
    cases hf
  · cases h

theorem Within.realPlace (hw : d.Within d') (hcwd : d'.cwd = d.cwd) (h : d.realPlace p = .ok place) :
    d'.realPlace p = .ok place := by
  obtain ⟨hp, hr, hlen⟩ := realPlace_ok.mp h
  exact realPlace_ok.mpr ⟨hp, by rw [Within.start hcwd]; exact hr.within hw, hlen⟩

/-- The front is the longest proper part of the components that leads somewhere. -/
structure Cut (d : Disk) (cs front tail : List Component) (base : Place) : Prop where
  parts : cs = front ++ tail
  proper : tail ≠ []
  leads : d.realPlace (Path.ofComponents front) = .ok base
  longest : ∀ more rest, tail = more ++ rest → more ≠ [] → rest ≠ [] →
    ∃ f, d.realPlace (Path.ofComponents (front ++ more)) = .error f ∧ f.isNotFound = true

theorem deepest_cut {cs : List Component} {k : Nat} (h : d.deepest p cs k = .ok place) (hk : k < cs.length)
    (hlonger : ∀ j, k < j → j < cs.length →
      ∃ f, d.realPlace (Path.ofComponents (cs.take j)) = .error f ∧ f.isNotFound = true) :
    ∃ front tail base, d.Cut cs front tail base ∧ place = tail.foldl Component.replay base := by
  induction k with
  | zero => cases h
  | succ k ih =>
    rw [deepest] at h
    split at h
    · rename_i base hleads
      cases h
      refine ⟨cs.take (k + 1), cs.drop (k + 1), base, ⟨(List.take_append_drop _ _).symm, ?_, hleads, ?_⟩, rfl⟩
      · simpa using hk
      · intro more rest hsplit hmore hrest
        have hcs : cs = (cs.take (k + 1) ++ more) ++ rest := by
          rw [List.append_assoc, ← hsplit, List.take_append_drop]
        have hlength : (cs.take (k + 1) ++ more).length = k + 1 + more.length := by
          rw [List.length_append, List.length_take, Nat.min_eq_left (by omega)]
        have htake : cs.take (k + 1 + more.length) = cs.take (k + 1) ++ more := by
          conv_lhs => rw [hcs, ← hlength]
          exact List.take_left
        have hpos := List.length_pos_iff.mpr hmore
        have hpos' := List.length_pos_iff.mpr hrest
        have htotal := congrArg List.length hcs
        rw [List.length_append, hlength] at htotal
        rw [← htake]
        exact hlonger _ (by omega) (by omega)
    · rename_i f hmissing
      split at h
      · rename_i hf
        refine ih h (by omega) fun j hj hlt => ?_
        rcases Nat.lt_or_ge (k + 1) j with hlater | hge
        · exact hlonger j hlater hlt
        · obtain rfl : j = k + 1 := by omega
          exact ⟨f, hmissing, hf⟩
      · cases h

theorem canonicalMissing_cut (h : d.canonicalMissing p = .ok place) :
    ∃ front tail base, d.Cut p.components front tail base ∧ place = tail.foldl Component.replay base := by
  unfold canonicalMissing at h
  cases hcs : p.components with
  | nil =>
    rw [hcs] at h
    cases h
  | cons c rest =>
    rw [hcs] at h
    exact deepest_cut h (by simp) fun j hj hlt => by simp at hj hlt; omega

theorem Cut.unique {cs front tail front' tail' : List Component} {base base' : Place}
    (h : d.Cut cs front tail base) (h' : d.Cut cs front' tail' base') :
    front = front' ∧ tail = tail' ∧ base = base' := by
  have hshorter {cs front tail front' tail' : List Component} {base base' : Place}
      (h : d.Cut cs front tail base) (h' : d.Cut cs front' tail' base') {more : List Component}
      (hfront : front' = front ++ more) (htail : tail = more ++ tail') : more = [] := by
    by_contra hmore
    obtain ⟨f, hmissing, -⟩ := h.longest more tail' htail hmore h'.proper
    rw [← hfront, h'.leads] at hmissing
    cases hmissing
  have hsame : front = front' ∧ tail = tail' := by
    rcases List.append_eq_append_iff.mp (h.parts.symm.trans h'.parts) with
      ⟨more, hfront, htail⟩ | ⟨more, hfront, htail⟩
    · obtain rfl := hshorter h h' hfront htail
      exact ⟨by simpa using hfront.symm, by simpa using htail⟩
    · obtain rfl := hshorter h' h hfront htail
      exact ⟨by simpa using hfront, by simpa using htail.symm⟩
  obtain ⟨rfl, rfl⟩ := hsame
  have hleads := h.leads
  rw [h'.leads] at hleads
  cases hleads
  exact ⟨rfl, rfl, rfl⟩

theorem Cut.routes {tail : List Component} {front : List Component} (h : d.Cut p.components front tail base)
    (habs : p.isAbsolute = true)
    (hmissing : ∀ q, d.isFolderAt q → ¬ d.Route .follow linkLimit [] p.moves q) :
    ∃ steps, p.moves = steps ++ tail.filterMap Component.step? ∧ (∀ c ∈ tail, c.IsInner) ∧
      d.Route .follow linkLimit [] steps base ∧
      ∀ more rest, tail = more ++ rest → more ≠ [] → ∀ q, d.isFolderAt q →
        ¬ d.Route .follow linkLimit [] (steps ++ more.filterMap Component.step?) q := by
  obtain ⟨inner, hinner, hcs, hmoves⟩ := Path.components_of_isAbsolute habs
  obtain ⟨front, rfl⟩ : ∃ inside, front = .root :: inside := by
    cases front with
    | nil => cases h.leads
    | cons c inside =>
      have hparts := hcs.symm.trans h.parts
      cases (List.cons.inj hparts).1
      exact ⟨inside, rfl⟩
  obtain rfl : inner = front ++ tail := (List.cons.inj (hcs.symm.trans h.parts)).2
  have hsteps {cs : List Component} (hcs : ∀ c ∈ cs, c.IsInner) :
      d.start (Path.ofComponents (.root :: cs)) = [] ∧
        (Path.ofComponents (.root :: cs)).steps = cs.filterMap Component.step? := by
    obtain ⟨habs, hsteps⟩ := Path.ofComponents_spec hcs
    exact ⟨by simp [Disk.start, habs], hsteps⟩
  have hfront : ∀ c ∈ front, c.IsInner := fun c hc => hinner c (List.mem_append_left _ hc)
  refine ⟨front.filterMap Component.step?, by rw [hmoves, List.filterMap_append],
    fun c hc => hinner c (List.mem_append_right _ hc), ?_, ?_⟩
  · obtain ⟨-, hr, -⟩ := realPlace_ok.mp h.leads
    rwa [(hsteps hfront).1, (hsteps hfront).2] at hr
  · intro more rest hsplit hmore q hq hr
    rw [← List.filterMap_append] at hr
    by_cases hrest : rest = []
    · rw [hrest, List.append_nil] at hsplit
      subst hsplit
      exact hmissing q hq (hmoves ▸ hr)
    · obtain ⟨f, hlonger, hf⟩ := h.longest more rest hsplit hmore hrest
      have hpart : ∀ c ∈ front ++ more, c.IsInner := fun c hc =>
        hinner c (by rw [hsplit, ← List.append_assoc]; exact List.mem_append_left _ hc)
      have hne : Path.ofComponents (.root :: front ++ more) ≠ [] := by
        intro hnil
        have habs := (Path.ofComponents_spec hpart).1
        rw [List.cons_append] at hnil
        rw [hnil] at habs
        cases habs
      refine (no_route_of_missing hlonger hf hne).2 q ?_
      rw [List.cons_append, (hsteps hpart).1, (hsteps hpart).2]
      exact hr

theorem foldl_replay_names {cs : List Component} (h : ∀ c ∈ cs, c.IsInner) (hup : .up ∉ cs) (here : Place) :
    ∃ names, cs.foldl Component.replay here = here ++ names := by
  induction cs generalizing here with
  | nil => exact ⟨[], (List.append_nil _).symm⟩
  | cons c rest ih =>
    have hc := h c List.mem_cons_self
    cases c with
    | root | here => cases hc
    | up => exact absurd List.mem_cons_self hup
    | name n =>
      obtain ⟨names, hnames⟩ := ih (fun c hc => h c (List.mem_cons_of_mem _ hc))
        (fun hmem => hup (List.mem_cons_of_mem _ hmem)) (here ++ [n])
      exact ⟨n :: names, by rw [List.foldl_cons, Component.replay, hnames]; simp⟩

/-- Where the end of a path is replayed, no name behind a `..` is a link. -/
def ReplaysNoLink (d : Disk) (p : Path) : Prop :=
  ∀ front tail base, d.Cut p.components front tail base →
    ∀ pre n post, tail = pre ++ .name n :: post → .up ∈ pre →
      d.isLinkAt (pre.foldl Component.replay base ++ [n]) = false

/-- Once the path leads to a folder, that folder stands where the replay has put it. -/
theorem Cut.lands {front tail : List Component} (h : d.Cut p.components front tail base) (hd : d.WellFormed)
    (habs : p.isAbsolute = true)
    (hmissing : ∀ q, d.isFolderAt q → ¬ d.Route .follow linkLimit [] p.moves q)
    (hfirst : ∀ n rest, tail = .name n :: rest → d.isLinkAt (base ++ [n]) = false)
    (hlinks : d.ReplaysNoLink p) (hg : Grown [] d d')
    (hr : d'.Route .follow linkLimit [] p.moves mid) : mid = tail.foldl Component.replay base := by
  obtain ⟨steps, hmoves, hinner, hbase, hstop⟩ := h.routes habs hmissing
  have hne : tail.filterMap Component.step? ≠ [] := by
    obtain ⟨c, rest, rfl⟩ := List.exists_cons_of_ne_nil h.proper
    obtain ⟨step, hstep, -⟩ := Component.step?_isSome (hinner c List.mem_cons_self)
    simp [hstep]
  rw [hmoves] at hr
  obtain ⟨place, fewer, -, hto, hlast, -⟩ := hr.split hne
  obtain rfl := hto.unique (hbase.within hg.within)
  refine hlast.replay ?_ ?_
  · rintro c hc rfl
    exact hinner _ hc
  intro pre n post hsplit
  suffices hold : d.isLinkAt (pre.foldl Component.replay place ++ [n]) = false by
    cases hnew : d'.isLinkAt (pre.foldl Component.replay place ++ [n]) with
    | false => rfl
    | true => rw [hg.link_before hnew] at hold; cases hold
  by_cases hup : .up ∈ pre
  · exact hlinks _ _ _ h pre n post hsplit hup
  cases pre with
  | nil => exact hfirst n post hsplit
  | cons c pre =>
    have hc := hinner c (by rw [hsplit]; simp)
    have hpre : ∀ c ∈ pre, c.IsInner := fun c hc => hinner c (by rw [hsplit]; simp [hc])
    cases c with
    | root | here => cases hc
    | up => exact absurd List.mem_cons_self hup
    | name m =>
      have hfolder : d.isFolderAt (place ++ [m]) = false := by
        by_contra hfolder
        rw [Bool.not_eq_false] at hfolder
        obtain ⟨mode, hm⟩ := isFolderAt_iff.mp hfolder
        have hplace : d.isFolderAt place := hd.parents (n := m) (by simp [hm])
        refine hstop [.name m] (pre ++ .name n :: post) (by rw [hsplit]; rfl) (by simp) _ hfolder ?_
        exact hbase.append hplace (by simp [Component.step?]) (by simp) fun _ =>
          .folder (by simp) (hd.names hm m (by simp)).2 hm .done
      obtain ⟨names, hnames⟩ := foldl_replay_names hpre (fun hmem => hup (List.mem_cons_of_mem _ hmem))
        (place ++ [m])
      have hnone : d.item? ((place ++ [m]) ++ (names ++ [n])) = none := hd.item?_below hfolder (by simp)
      rw [List.foldl_cons, Component.replay, hnames, List.append_assoc, isLinkAt, node?, hnone]
      rfl

-- ---------------------------------------------------------------------------
-- The folder that a path stands in
-- ---------------------------------------------------------------------------

def lead (d : Disk) (p : Path) : List Step := if p.isAbsolute then [] else d.cwd.map .down

theorem Route.from_root (hd : d.WellFormed) (hcwd : p.isAbsolute = true ∨ d.isFolderAt d.cwd = true)
    (h : d.Route .follow links (d.start p) steps place) :
    d.Route .follow links [] (d.lead p ++ steps) place := by
  unfold lead
  unfold Disk.start at h
  split
  · rename_i habs
    rwa [if_pos habs] at h
  · rename_i hrel
    rw [if_neg hrel] at h
    exact .enter hd d.cwd (hcwd.resolve_left hrel) h

theorem absolute_ok {abs : Path} : d.absolute p = .ok abs ↔
    p ≠ [] ∧ (p.isAbsolute = true ∨ d.isFolderAt d.cwd = true) ∧ abs = p.absoluteFrom d.cwdPath := by
  unfold absolute
  by_cases hempty : p = []
  · simp [hempty]
  · rw [if_neg hempty, and_iff_right hempty]
    by_cases hcwd : p.isAbsolute = true ∨ d.isFolderAt d.cwd = true
    · rw [if_pos hcwd, and_iff_right hcwd, Except.ok.injEq]
      exact eq_comm
    · rw [if_neg hcwd]
      exact ⟨fun h => (nomatch h), fun h => absurd h.1 hcwd⟩

theorem filter_lead (d : Disk) (p : Path) : (d.lead p).filter (· ≠ .stay) = d.lead p := by
  refine List.filter_eq_self.mpr fun step hstep => ?_
  unfold lead at hstep
  split at hstep
  · cases hstep
  · obtain ⟨n, -, rfl⟩ := List.mem_map.mp hstep
    simp

theorem absolute_moves {abs : Path} (hd : d.WellFormed) (h : d.absolute p = .ok abs) :
    abs.isAbsolute = true ∧ abs.moves = d.lead p ++ p.moves := by
  obtain ⟨-, hcwd, rfl⟩ := absolute_ok.mp h
  obtain ⟨habs, hbare⟩ := Path.absoluteFrom_spec p (Place.isAbsolute_path d.cwd)
  have hlead : (if p.isAbsolute then [] else d.cwdPath.bare) = d.lead p := by
    unfold lead
    split
    · rfl
    · rename_i hrel
      obtain ⟨mode, hm⟩ := isFolderAt_iff.mp (hcwd.resolve_left hrel)
      exact Place.bare_path d.cwd fun n hn => (hd.names hm n hn).1
  refine ⟨habs, ?_⟩
  rw [← Path.filter_bare, cwdPath, hbare, ← cwdPath, hlead, List.filter_append, filter_lead, Path.filter_moves]

theorem absolute_of_isAbsolute (d : Disk) (hp : p.isAbsolute = true) :
    ∃ abs, d.absolute p = .ok abs ∧ abs.components = p.components := by
  have hne : p ≠ [] := by rintro rfl; cases hp
  exact ⟨_, absolute_ok.mpr ⟨hne, .inl hp, rfl⟩, Path.components_absoluteFrom hp (Place.isAbsolute_path d.cwd)⟩

theorem within_openWrite {mode : Mode} (h : d.openWrite p { truncate := false, mode } = .ok (place, d')) :
    d.Within d' ∧ d'.cwd = d.cwd := by
  rcases openWrite_ok h with ⟨folder, n, hl, rfl, rfl⟩ | ⟨id, -, -, rfl | ⟨htruncate, -⟩⟩
  · exact ⟨within_addNode _ (by simp) (locate_free hl).2.free, rfl⟩
  · exact ⟨.refl _, rfl⟩
  · cases htruncate

end Disk

end SafeFiles
