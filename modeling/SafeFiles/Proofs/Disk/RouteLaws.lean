import SafeFiles.Proofs.Disk.TreeLaws

/-!
# Routes

A walk that finds something has gone along a route: `walk_found` says that the
rules of `Route` are exactly the finding walks. A route is kept by every disk
that has the entries it leads over, so what follows is about which entries those
are: not more than the tree holds (`Route.within`), and never a plain leaf
before its end (`Route.erase_or_through`).
-/

namespace SafeFiles

namespace Disk

/-- From the folder `here` the steps lead to `there`, over at most `links` links. -/
inductive Route (d : Disk) (final : Final) : Nat → Place → List Step → Place → Prop
  | done {links here} : Route d final links here [] here
  | stay {links here rest there} : Route d final links here rest there →
      Route d final links here (.stay :: rest) there
  | slash {links here rest there} : Route d final links here rest there →
      Route d final links here (.slash :: rest) there
  | up {links here rest there} : Route d final links here.dropLast rest there →
      Route d final links here (.up :: rest) there
  | folder {links here n mode rest there} : (final = .create → rest ≠ [.slash]) →
      Text.utf8Size n ≤ nameLimit → d.item? (here ++ [n]) = some (.folder mode) →
      Route d final links (here ++ [n]) rest there → Route d final links here (.down n :: rest) there
  | link {links here n id target rest there} : (final = .create → rest ≠ [.slash]) →
      Text.utf8Size n ≤ nameLimit → d.item? (here ++ [n]) = some (.leaf id) →
      d.node id = .link target → (rest = [] → final ≠ .look) →
      Route d final links (if target.isAbsolute then [] else here) (target.steps ++ rest) there →
      Route d final (links + 1) here (.down n :: rest) there
  | leaf {links here n id} : Text.utf8Size n ≤ nameLimit →
      d.item? (here ++ [n]) = some (.leaf id) → ((d.node id).isLink → final = .look) →
      Route d final links here [.down n] (here ++ [n])

variable {d d' : Disk} {final : Final} {links : Nat} {here there p q : Place} {n : Name}
  {rest steps before after : List Step} {id : NodeId} {mode : Mode} {target : Path}

-- ---------------------------------------------------------------------------
-- Walks and routes
-- ---------------------------------------------------------------------------

def beyond (d : Disk) (final : Final) : Nat → Place → List Step → Except Errno Spot
  | 0 => fun _ _ => .error .linkLoop
  | links + 1 => d.walk final links

theorem walk_eq_stride (d : Disk) (final : Final) (links : Nat) :
    d.walk final links = d.stride final (d.beyond final links) := by
  cases links <;> rfl

theorem stride_down_found {through : Place → List Step → Except Errno Spot} :
    d.stride final through here (.down n :: rest) = .ok (.found p) ↔
      ((final = .create → rest ≠ [.slash]) ∧ Text.utf8Size n ≤ nameLimit) ∧
      ((∃ mode, d.item? (here ++ [n]) = some (.folder mode) ∧
          d.stride final through (here ++ [n]) rest = .ok (.found p)) ∨
        (∃ id target, d.item? (here ++ [n]) = some (.leaf id) ∧ d.node id = .link target ∧
          (rest = [] → final ≠ .look) ∧
          through (if target.isAbsolute then [] else here) (target.steps ++ rest) =
            .ok (.found p)) ∨
        (∃ id, d.item? (here ++ [n]) = some (.leaf id) ∧ ((d.node id).isLink → final = .look) ∧
          rest = [] ∧ p = here ++ [n])) := by
  rw [stride]
  by_cases hc : final = .create ∧ rest = [.slash]
  · simp [hc.1, hc.2]
  by_cases hn : Text.utf8Size n > nameLimit
  · simp [hc, hn, Nat.not_le.mpr hn]
  have hg : (final = .create → rest ≠ [.slash]) ∧ Text.utf8Size n ≤ nameLimit :=
    ⟨fun h h' => hc ⟨h, h'⟩, Nat.not_lt.mp hn⟩
  rw [if_neg hc, if_neg hn, and_iff_right hg]
  cases hi : d.item? (here ++ [n]) with
  | none =>
    simp only
    split <;> simp
  | some item =>
    cases item with
    | folder mode => simp
    | leaf id =>
      cases hnode : d.node id with
      | link target =>
        by_cases hr : rest = [] ∧ final = .look
        · simp [hr, hnode, eq_comm (a := p)]
        · have hl : rest = [] → final ≠ .look := fun h h' => hr ⟨h, h'⟩
          simp only [hnode, if_neg hr]
          constructor
          · exact fun h => .inr (.inl ⟨id, target, rfl, hnode, hl, h⟩)
          · rintro (⟨_, h, _⟩ | ⟨_, _, h, ht, -, h'⟩ | ⟨_, h, hf, hrest, -⟩)
            · cases h
            · cases h
              rw [hnode] at ht
              cases ht
              exact h'
            · cases h
              exact absurd (hf (by simp [hnode, Node.isLink])) (hl hrest)
      | _ =>
        by_cases hr : rest = []
        · simp [hr, hnode, Node.isLink, eq_comm (a := p)]
        · simp [hr, hnode]

theorem Route.stride (h : d.Route final links here steps p) :
    d.stride final (d.beyond final links) here steps = .ok (.found p) := by
  induction h with
  | done => rfl
  | stay _ ih => exact ih
  | slash _ ih => exact ih
  | up _ ih => exact ih
  | folder hc hn hi _ ih => exact stride_down_found.mpr ⟨⟨hc, hn⟩, .inl ⟨_, hi, ih⟩⟩
  | link hc hn hi hl hr _ ih =>
    refine stride_down_found.mpr ⟨⟨hc, hn⟩, .inr (.inl ⟨_, _, hi, hl, hr, ?_⟩)⟩
    rw [← walk_eq_stride] at ih
    exact ih
  | leaf hn hi hl =>
    exact stride_down_found.mpr ⟨⟨by simp, hn⟩, .inr (.inr ⟨_, hi, hl, rfl, rfl⟩)⟩

/-- A stride is a route if whatever goes on beyond its links is one. -/
theorem route_of_stride (hb : ∀ here steps, d.beyond final links here steps = .ok (.found p) →
      ∃ fewer, links = fewer + 1 ∧ d.Route final fewer here steps p)
    (h : d.stride final (d.beyond final links) here steps = .ok (.found p)) :
    d.Route final links here steps p := by
  induction steps generalizing here with
  | nil =>
    simp only [Disk.stride, Except.ok.injEq, Spot.found.injEq] at h
    exact h ▸ .done
  | cons step rest ih =>
    cases step with
    | stay => exact .stay (ih h)
    | slash => exact .slash (ih h)
    | up => exact .up (ih h)
    | down n =>
      obtain ⟨⟨hc, hn⟩, ⟨mode, hi, h⟩ | ⟨id, target, hi, hl, hr, h⟩ | ⟨id, hi, hl, rfl, rfl⟩⟩ :=
        stride_down_found.mp h
      · exact .folder hc hn hi (ih h)
      · obtain ⟨fewer, rfl, hroute⟩ := hb _ _ h
        exact .link hc hn hi hl hr hroute
      · exact .leaf hn hi hl

theorem walk_found : d.walk final links here steps = .ok (.found p) ↔
    d.Route final links here steps p := by
  rw [walk_eq_stride]
  refine ⟨fun h => ?_, Route.stride⟩
  induction links generalizing here steps with
  | zero => exact route_of_stride (fun _ _ h => by simp [beyond] at h) h
  | succ links ih =>
    refine route_of_stride (fun here steps h => ⟨links, rfl, ih ?_⟩) h
    rwa [← walk_eq_stride]

-- ---------------------------------------------------------------------------
-- One route, and one end
-- ---------------------------------------------------------------------------

theorem Route.more (h : d.Route final links here steps p) {more : Nat} (hm : links ≤ more) :
    d.Route final more here steps p := by
  induction h generalizing more with
  | done => exact .done
  | stay _ ih => exact .stay (ih hm)
  | slash _ ih => exact .slash (ih hm)
  | up _ ih => exact .up (ih hm)
  | folder hc hn hi _ ih => exact .folder hc hn hi (ih hm)
  | link hc hn hi hl hr _ ih =>
    obtain ⟨fewer, rfl⟩ : ∃ fewer, more = fewer + 1 := ⟨more - 1, by omega⟩
    exact .link hc hn hi hl hr (ih (by omega))
  | leaf hn hi hl => exact .leaf hn hi hl

/-- A stride that is not cut short beyond a link goes on wherever the one that goes further beyond does. -/
theorem stride_more {through through' : Place → List Step → Except Errno Spot}
    (hb : ∀ here steps, through here steps ≠ .error .linkLoop → through' here steps = through here steps)
    (h : d.stride final through here steps ≠ .error .linkLoop) :
    d.stride final through' here steps = d.stride final through here steps := by
  induction steps generalizing here with
  | nil => rfl
  | cons step rest ih =>
    cases step with
    | stay => exact ih h
    | slash => exact ih h
    | up => exact ih h
    | down n =>
      rw [stride] at h ⊢
      rw [stride]
      by_cases hslash : final = .create ∧ rest = [.slash]
      · simp only [if_pos hslash]
      by_cases hlong : Text.utf8Size n > nameLimit
      · simp only [if_neg hslash, if_pos hlong]
      simp only [if_neg hslash, if_neg hlong] at h ⊢
      cases hi : d.item? (here ++ [n]) with
      | none => rfl
      | some item =>
        cases item with
        | folder mode => exact ih (by simpa only [hi] using h)
        | leaf id =>
          simp only [hi] at h ⊢
          cases hnode : d.node id with
          | link target =>
            simp only [hnode] at h ⊢
            by_cases hlook : rest = [] ∧ final = .look
            · simp only [if_pos hlook]
            · simp only [if_neg hlook] at h ⊢
              exact hb _ _ h
          | file _ _ | device _ | kernel _ _ => rfl

/-- Only a walk that runs out of links can end differently if more of them may be followed. -/
theorem walk_more {more : Nat} (hm : links ≤ more) (h : d.walk final links here steps ≠ .error .linkLoop) :
    d.walk final more here steps = d.walk final links here steps := by
  induction links generalizing more here steps with
  | zero =>
    rw [walk_eq_stride d final more]
    exact stride_more (fun _ _ hloop => absurd rfl hloop) h
  | succ links ih =>
    obtain ⟨fewer, rfl⟩ : ∃ fewer, more = fewer + 1 := ⟨more - 1, by omega⟩
    exact stride_more (fun _ _ hwalk => ih (by omega) hwalk) h

theorem Route.unique {links' : Nat} (h : d.Route final links here steps p)
    (h' : d.Route final links' here steps q) : p = q := by
  have hp := walk_found.mpr (h.more (Nat.le_max_left links links'))
  have hq := walk_found.mpr (h'.more (Nat.le_max_right links links'))
  rw [hp] at hq
  simpa using hq

theorem Route.within (h : d.Route final links here steps p) (hw : d.Within d') :
    d'.Route final links here steps p := by
  induction h with
  | done => exact .done
  | stay _ ih => exact .stay ih
  | slash _ ih => exact .slash ih
  | up _ ih => exact .up ih
  | folder hc hn hi _ ih => exact .folder hc hn (hw.item hi) ih
  | link hc hn hi hl hr _ ih => exact .link hc hn (hw.item hi) (hw.node hi ▸ hl) hr ih
  | leaf hn hi hl => exact .leaf hn (hw.item hi) (hw.node hi ▸ hl)

-- ---------------------------------------------------------------------------
-- Parts of a route
-- ---------------------------------------------------------------------------

theorem WellFormed.isFolderAt_dropLast (hd : d.WellFormed) (h : d.isFolderAt here) :
    d.isFolderAt here.dropLast := by
  rcases List.eq_nil_or_concat here with rfl | ⟨above, n, rfl⟩
  · exact h
  · obtain ⟨mode, hm⟩ := isFolderAt_iff.mp h
    rw [List.concat_eq_append] at hm ⊢
    rw [List.dropLast_concat]
    exact hd.parents (n := n) (by simp [hm])

theorem WellFormed.isFolderAt_base (hd : d.WellFormed) {item : Item}
    (hi : d.item? (here ++ [n]) = some item) (target : Path) :
    d.isFolderAt (if target.isAbsolute then [] else here) := by
  split
  · rfl
  · exact hd.parents (n := n) (by simp [hi])

/-- What comes before the last steps of a route leads, with every link followed, to a folder from which
the last steps go on. -/
theorem Route.split (h : d.Route final links here (before ++ after) p) (hne : after ≠ []) :
    ∃ mid fewer, fewer ≤ links ∧ d.Route .follow links here before mid ∧
      d.Route final fewer mid after p ∧
      (d.WellFormed → d.isFolderAt here → d.isFolderAt mid) := by
  generalize hs : before ++ after = steps at h
  -- An empty first part ends where it starts; a longer one is handed on by each rule.
  induction h generalizing before with
  | done => exact absurd (List.append_eq_nil_iff.mp hs).2 hne
  | stay hroute ih =>
    rcases before with _ | ⟨step, before⟩
    · obtain rfl : after = _ := hs
      exact ⟨_, _, Nat.le_refl _, .done, hroute.stay, fun _ h => h⟩
    · obtain ⟨rfl, hrest⟩ := List.cons.inj hs
      obtain ⟨mid, fewer, hle, hb, ha, hf⟩ := ih hrest
      exact ⟨mid, fewer, hle, hb.stay, ha, hf⟩
  | slash hroute ih =>
    rcases before with _ | ⟨step, before⟩
    · obtain rfl : after = _ := hs
      exact ⟨_, _, Nat.le_refl _, .done, hroute.slash, fun _ h => h⟩
    · obtain ⟨rfl, hrest⟩ := List.cons.inj hs
      obtain ⟨mid, fewer, hle, hb, ha, hf⟩ := ih hrest
      exact ⟨mid, fewer, hle, hb.slash, ha, hf⟩
  | up hroute ih =>
    rcases before with _ | ⟨step, before⟩
    · obtain rfl : after = _ := hs
      exact ⟨_, _, Nat.le_refl _, .done, hroute.up, fun _ h => h⟩
    · obtain ⟨rfl, hrest⟩ := List.cons.inj hs
      obtain ⟨mid, fewer, hle, hb, ha, hf⟩ := ih hrest
      exact ⟨mid, fewer, hle, hb.up, ha, fun hd h => hf hd (hd.isFolderAt_dropLast h)⟩
  | folder hc hn hi hroute ih =>
    rcases before with _ | ⟨step, before⟩
    · obtain rfl : after = _ := hs
      exact ⟨_, _, Nat.le_refl _, .done, .folder hc hn hi hroute, fun _ h => h⟩
    · obtain ⟨rfl, hrest⟩ := List.cons.inj hs
      obtain ⟨mid, fewer, hle, hb, ha, hf⟩ := ih hrest
      exact ⟨mid, fewer, hle, .folder (fun h => nomatch h) hn hi hb, ha,
        fun hd _ => hf hd (isFolderAt_of_item hi)⟩
  | @link _ _ _ _ target _ _ hc hn hi hl hr hroute ih =>
    rcases before with _ | ⟨step, before⟩
    · obtain rfl : after = _ := hs
      exact ⟨_, _, Nat.le_refl _, .done, .link hc hn hi hl hr hroute, fun _ h => h⟩
    · obtain ⟨rfl, hrest⟩ := List.cons.inj hs
      obtain ⟨mid, fewer, hle, hb, ha, hf⟩ :=
        @ih (target.steps ++ before) (by rw [← hrest, List.append_assoc]; rfl)
      exact ⟨mid, fewer, by omega, .link (fun h => nomatch h) hn hi hl (fun _ h => nomatch h) hb, ha,
        fun hd _ => hf hd (hd.isFolderAt_base hi target)⟩
  | leaf hn hi hl =>
    rcases before with _ | ⟨step, before⟩
    · obtain rfl : after = _ := hs
      exact ⟨_, _, Nat.le_refl _, .done, .leaf hn hi hl, fun _ h => h⟩
    · exact absurd (List.append_eq_nil_iff.mp (List.cons.inj hs).2).2 hne

theorem Route.append (h : d.Route .follow links here before q) (hq : d.isFolderAt q)
    (hne : after ≠ []) (hslash : final = .create → after ≠ [.slash])
    (h' : ∀ links, d.Route final links q after p) : d.Route final links here (before ++ after) p := by
  have hmore (rest : List Step) (hc : final = .create) : rest ++ after ≠ [.slash] := by
    cases rest with
    | nil => exact hslash hc
    | cons _ _ => simp [hne]
  induction h with
  | done => exact h' _
  | stay _ ih => exact .stay (ih hq h')
  | slash _ ih => exact .slash (ih hq h')
  | up _ ih => exact .up (ih hq h')
  | folder _ hn hi _ ih => exact .folder (hmore _) hn hi (ih hq h')
  | link _ hn hi hl _ _ ih =>
    refine .link (hmore _) hn hi hl (fun h => absurd (List.append_eq_nil_iff.mp h).2 hne) ?_
    simpa using ih hq h'
  | leaf _ hi _ => simp [isFolderAt, hi] at hq

theorem Route.append_slash (h : d.Route .follow links here steps p) (hp : d.isFolderAt p) :
    d.Route .follow links here (steps ++ [.slash]) p :=
  h.append hp (by simp) (by simp) fun _ => .slash .done

theorem Route.replace_last {last : List Step} (h : d.Route .follow links here (before ++ rest) there)
    (hf : d.isFolderAt there)
    (hlast : ∀ links mid, d.Route .follow links mid rest there → d.Route .follow links mid last there) :
    d.Route .follow links here (before ++ last) there := by
  generalize hs : before ++ rest = steps at h
  induction h generalizing before with
  | done =>
    obtain ⟨rfl, rfl⟩ := List.append_eq_nil_iff.mp hs
    exact hlast _ _ .done
  | stay hroute ih =>
    rcases before with _ | ⟨step, before⟩
    · obtain rfl : rest = _ := hs
      exact hlast _ _ hroute.stay
    · obtain ⟨rfl, hrest⟩ := List.cons.inj hs
      exact .stay (ih hf hlast hrest)
  | slash hroute ih =>
    rcases before with _ | ⟨step, before⟩
    · obtain rfl : rest = _ := hs
      exact hlast _ _ hroute.slash
    · obtain ⟨rfl, hrest⟩ := List.cons.inj hs
      exact .slash (ih hf hlast hrest)
  | up hroute ih =>
    rcases before with _ | ⟨step, before⟩
    · obtain rfl : rest = _ := hs
      exact hlast _ _ hroute.up
    · obtain ⟨rfl, hrest⟩ := List.cons.inj hs
      exact .up (ih hf hlast hrest)
  | folder hc hn hi hroute ih =>
    rcases before with _ | ⟨step, before⟩
    · obtain rfl : rest = _ := hs
      exact hlast _ _ (.folder hc hn hi hroute)
    · obtain ⟨rfl, hrest⟩ := List.cons.inj hs
      exact .folder (by simp) hn hi (ih hf hlast hrest)
  | @link _ _ _ _ target _ _ hc hn hi hl hr hroute ih =>
    rcases before with _ | ⟨step, before⟩
    · obtain rfl : rest = _ := hs
      exact hlast _ _ (.link hc hn hi hl hr hroute)
    · obtain ⟨rfl, hrest⟩ := List.cons.inj hs
      have hbehind := @ih (target.steps ++ before) hf hlast (by rw [← hrest, List.append_assoc]; rfl)
      rw [List.append_assoc] at hbehind
      exact .link (by simp) hn hi hl (by simp) hbehind
  | leaf _ hi _ => simp [isFolderAt, hi] at hf

theorem Route.filter_iff (before : List Step) (hf : d.isFolderAt there) :
    d.Route .follow links here (before ++ steps.filter (· ≠ .stay)) there ↔
      d.Route .follow links here (before ++ steps) there := by
  induction steps generalizing before with
  | nil => rfl
  | cons step rest ih =>
    by_cases hstay : step = .stay
    · subst hstay
      rw [List.filter_cons_of_neg (by simp), ih]
      constructor
      · exact fun h => h.replace_last hf fun _ _ => .stay
      · refine fun h => h.replace_last hf fun _ _ hstay => ?_
        cases hstay with | stay hrest => exact hrest
    · rw [List.filter_cons_of_pos (by simpa using hstay), List.append_cons, ih, ← List.append_cons]

theorem Route.follow_of_look (h : d.Route .look links here steps p) (hp : d.isFolderAt p) :
    d.Route .follow links here steps p := by
  induction h with
  | done => exact .done
  | stay _ ih => exact .stay (ih hp)
  | slash _ ih => exact .slash (ih hp)
  | up _ ih => exact .up (ih hp)
  | folder _ hn hi _ ih => exact .folder (fun h => nomatch h) hn hi (ih hp)
  | link _ hn hi hl _ _ ih =>
    exact .link (fun h => nomatch h) hn hi hl (fun _ h => nomatch h) (ih hp)
  | leaf _ hi _ => simp [isFolderAt, hi] at hp

theorem Route.follow_of_create (h : d.Route .create links here steps p) :
    d.Route .follow links here steps p := by
  induction h with
  | done => exact .done
  | stay _ ih => exact .stay ih
  | slash _ ih => exact .slash ih
  | up _ ih => exact .up ih
  | folder _ hn hi _ ih => exact .folder (by simp) hn hi ih
  | link _ hn hi hl _ _ ih => exact .link (by simp) hn hi hl (by simp) ih
  | leaf hn hi hl => exact .leaf hn hi fun h => nomatch hl h

-- ---------------------------------------------------------------------------
-- Walks along a route
-- ---------------------------------------------------------------------------

theorem walk_stay : d.walk final links here (.stay :: rest) = d.walk final links here rest := by
  rw [walk_eq_stride, stride]

theorem walk_slash : d.walk final links here (.slash :: rest) = d.walk final links here rest := by
  rw [walk_eq_stride, stride]

theorem walk_up : d.walk final links here (.up :: rest) = d.walk final links here.dropLast rest := by
  rw [walk_eq_stride, stride]

theorem walk_folder (hn : Text.utf8Size n ≤ nameLimit) (hi : d.item? (here ++ [n]) = some (.folder mode)) :
    d.walk .follow links here (.down n :: rest) = d.walk .follow links (here ++ [n]) rest := by
  rw [walk_eq_stride, stride]
  simp [hi, Nat.not_lt.mpr hn]

theorem walk_link (hn : Text.utf8Size n ≤ nameLimit) (hi : d.item? (here ++ [n]) = some (.leaf id))
    (hl : d.node id = .link target) : d.walk .follow (links + 1) here (.down n :: rest) =
      d.walk .follow links (if target.isAbsolute then [] else here) (target.steps ++ rest) := by
  rw [walk_eq_stride, stride]
  simp [hi, hl, Nat.not_lt.mpr hn, beyond]

theorem walk_past_file (hn : Text.utf8Size n ≤ nameLimit) (hi : d.item? (here ++ [n]) = some (.leaf id))
    (hl : (d.node id).isLink = false) (hrest : rest ≠ []) :
    d.walk .follow links here (.down n :: rest) = .error .notFolder := by
  rw [walk_eq_stride, stride]
  cases hnode : d.node id with
  | link target => simp [hnode, Node.isLink] at hl
  | _ => simp [hi, hnode, hrest, Nat.not_lt.mpr hn]

theorem walk_enter (hd : d.WellFormed) (names : List Name) (hf : d.isFolderAt (here ++ names)) :
    d.walk .follow links here (names.map .down ++ rest) = d.walk .follow links (here ++ names) rest := by
  induction names generalizing here with
  | nil => simp
  | cons n names ih =>
    have hf' : d.isFolderAt ((here ++ [n]) ++ names) := by simpa using hf
    obtain ⟨mode, hm⟩ := isFolderAt_iff.mp (hd.isFolderAt_of_append hf')
    refine (walk_folder (hd.names hm n (by simp)).2 hm).trans ?_
    simpa using ih hf'

theorem Route.enter (hd : d.WellFormed) (names : List Name) (hf : d.isFolderAt (here ++ names))
    (h : d.Route .follow links (here ++ names) rest p) :
    d.Route .follow links here (names.map .down ++ rest) p := by
  rw [← walk_found] at h ⊢
  rw [walk_enter hd names hf, h]

theorem Route.walk_append (h : d.Route .follow links here before p) (hp : d.isFolderAt p) :
    ∃ fewer, fewer ≤ links ∧
      ∀ rest, d.walk .follow links here (before ++ rest) = d.walk .follow fewer p rest := by
  induction h with
  | done => exact ⟨_, Nat.le_refl _, fun rest => rfl⟩
  | stay _ ih =>
    obtain ⟨fewer, hle, hwalk⟩ := ih hp
    exact ⟨fewer, hle, fun rest => walk_stay.trans (hwalk rest)⟩
  | slash _ ih =>
    obtain ⟨fewer, hle, hwalk⟩ := ih hp
    exact ⟨fewer, hle, fun rest => walk_slash.trans (hwalk rest)⟩
  | up _ ih =>
    obtain ⟨fewer, hle, hwalk⟩ := ih hp
    exact ⟨fewer, hle, fun rest => walk_up.trans (hwalk rest)⟩
  | folder _ hn hi _ ih =>
    obtain ⟨fewer, hle, hwalk⟩ := ih hp
    exact ⟨fewer, hle, fun rest => (walk_folder hn hi).trans (hwalk rest)⟩
  | link _ hn hi hl _ _ ih =>
    obtain ⟨fewer, hle, hwalk⟩ := ih hp
    refine ⟨fewer, Nat.le_succ_of_le hle, fun rest => (walk_link hn hi hl).trans ?_⟩
    have hbehind := hwalk rest
    rw [List.append_assoc] at hbehind
    exact hbehind
  | leaf _ hi _ => simp [isFolderAt, hi] at hp

-- ---------------------------------------------------------------------------
-- Where one entry goes
-- ---------------------------------------------------------------------------

/-- A route that does not end at a leaf needs it only if the leaf is a link that it goes through. -/
theorem Route.erase_or_through {b : Place} {id : NodeId}
    (h : d.Route final links here steps p) (hb : d.item? b = some (.leaf id)) (hp : p ≠ b) :
    (d.eraseItem b).Route final links here steps p ∨
      ∃ above n target rest fewer, above ++ [n] = b ∧ d.node id = .link target ∧
        d.Route final fewer (if target.isAbsolute then [] else above) (target.steps ++ rest) p := by
  have hne : b ≠ [] := by rintro rfl; simp [item?] at hb
  have hkept {q item} (hq : b ≠ q) (hi : d.item? q = some item) :
      (d.eraseItem b).item? q = some item := by
    rw [item?_eraseItem d b q hne, if_neg hq, hi]
  induction h with
  | done => exact .inl .done
  | stay _ ih => exact (ih hp).imp .stay fun h => h
  | slash _ ih => exact (ih hp).imp .slash fun h => h
  | up _ ih => exact (ih hp).imp .up fun h => h
  | @folder _ here n mode _ _ hc hn hi _ ih =>
    have hq : b ≠ here ++ [n] := by rintro rfl; simp [hb] at hi
    exact (ih hp).imp (.folder hc hn (hkept hq hi)) fun h => h
  | @link _ here n id' target rest _ hc hn hi hl hr hroute ih =>
    by_cases hq : b = here ++ [n]
    · subst hq
      have hid : id = id' := by simpa [hb] using hi
      exact .inr ⟨here, n, target, rest, _, rfl, hid ▸ hl, hroute⟩
    · exact (ih hp).imp (.link hc hn (hkept hq hi) hl hr) fun h => h
  | leaf hn hi hl => exact .inl (.leaf hn (hkept (Ne.symm hp) hi) hl)

theorem Route.erase {b : Place} {id : NodeId} (h : d.Route final links here steps p)
    (hb : d.item? b = some (.leaf id)) (hl : (d.node id).isLink = false) (hp : p ≠ b) :
    (d.eraseItem b).Route final links here steps p := by
  rcases h.erase_or_through hb hp with h | ⟨_, _, target, _, _, _, hn, _⟩
  · exact h
  · simp [hn, Node.isLink] at hl

end Disk

end SafeFiles
