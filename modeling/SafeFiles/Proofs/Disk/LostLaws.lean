import SafeFiles.Proofs.Disk.GrowthLaws

/-!
# Walks that come to nothing

A walk that does not arrive because something is not there has come to a missing
name: the rules of `Lost` are exactly the walks that end so (`walk_lost`). A part
of such a walk is lost as well, or leads to a place that the rest is lost from
(`Lost.split`), and dots and slashes in between make no difference (`Lost.congr`).
On a disk from which entries have been taken away a walk ends as it did before, or
it comes to nothing (`walk_within`).
-/

namespace SafeFiles

def Step.isMove : Step → Bool
  | .up | .down _ => true
  | .stay | .slash => false

namespace Disk

/-- From the folder `here` the steps come to a name that is missing, over at most `links` links. -/
inductive Lost (d : Disk) : Nat → Place → List Step → Prop
  | stay {links here rest} : Lost d links here rest → Lost d links here (.stay :: rest)
  | slash {links here rest} : Lost d links here rest → Lost d links here (.slash :: rest)
  | up {links here rest} : Lost d links here.dropLast rest → Lost d links here (.up :: rest)
  | missing {links here n rest} : Text.utf8Size n ≤ nameLimit → d.item? (here ++ [n]) = none →
      Lost d links here (.down n :: rest)
  | folder {links here n mode rest} : Text.utf8Size n ≤ nameLimit →
      d.item? (here ++ [n]) = some (.folder mode) → Lost d links (here ++ [n]) rest →
      Lost d links here (.down n :: rest)
  | link {links here n id target rest} : Text.utf8Size n ≤ nameLimit →
      d.item? (here ++ [n]) = some (.leaf id) → d.node id = .link target →
      Lost d links (if target.isAbsolute then [] else here) (target.steps ++ rest) →
      Lost d (links + 1) here (.down n :: rest)

def Missing : Except Errno Spot → Prop
  | .error e => e = .noEntry
  | .ok (.free _ _) => True
  | .ok (.found _) => False

variable {d d' : Disk} {links : Nat} {here place q : Place} {n : Name} {rest steps steps' before after : List Step}

-- ---------------------------------------------------------------------------
-- Walks and what is lost
-- ---------------------------------------------------------------------------

theorem stride_down_missing {through : Place → List Step → Except Errno Spot} :
    Missing (d.stride .follow through here (.down n :: rest)) ↔ Text.utf8Size n ≤ nameLimit ∧
      (d.item? (here ++ [n]) = none ∨
        (∃ mode, d.item? (here ++ [n]) = some (.folder mode) ∧
          Missing (d.stride .follow through (here ++ [n]) rest)) ∨
        (∃ id target, d.item? (here ++ [n]) = some (.leaf id) ∧ d.node id = .link target ∧
          Missing (through (if target.isAbsolute then [] else here) (target.steps ++ rest)))) := by
  rw [stride, if_neg (by simp)]
  by_cases hn : Text.utf8Size n > nameLimit
  · simp [Missing, Errno.nameTooLong, Errno.noEntry, hn, Nat.not_le.mpr hn]
  rw [if_neg hn, and_iff_right (Nat.not_lt.mp hn)]
  cases hi : d.item? (here ++ [n]) with
  | none =>
    simp only [true_or, iff_true]
    split <;> simp [Missing]
  | some item =>
    cases item with
    | folder mode => simp
    | leaf id =>
      cases hnode : d.node id with
      | link target => simp [hnode]
      | _ => by_cases hr : rest = [] <;> simp [hr, hnode, Missing, Errno.notFolder, Errno.noEntry]

theorem Lost.stride (h : d.Lost links here steps) :
    Missing (d.stride .follow (d.beyond .follow links) here steps) := by
  induction h with
  | stay _ ih => exact ih
  | slash _ ih => exact ih
  | up _ ih => exact ih
  | missing hn hi => exact stride_down_missing.mpr ⟨hn, .inl hi⟩
  | folder hn hi _ ih => exact stride_down_missing.mpr ⟨hn, .inr (.inl ⟨_, hi, ih⟩)⟩
  | link hn hi hl _ ih =>
    refine stride_down_missing.mpr ⟨hn, .inr (.inr ⟨_, _, hi, hl, ?_⟩)⟩
    rw [← walk_eq_stride] at ih
    exact ih

theorem lost_of_stride (hb : ∀ here steps, Missing (d.beyond .follow links here steps) →
      ∃ fewer, links = fewer + 1 ∧ d.Lost fewer here steps)
    (h : Missing (d.stride .follow (d.beyond .follow links) here steps)) : d.Lost links here steps := by
  induction steps generalizing here with
  | nil => cases h
  | cons step rest ih =>
    cases step with
    | stay => exact .stay (ih h)
    | slash => exact .slash (ih h)
    | up => exact .up (ih h)
    | down n =>
      obtain ⟨hn, hi | ⟨mode, hi, h⟩ | ⟨id, target, hi, hl, h⟩⟩ := stride_down_missing.mp h
      · exact .missing hn hi
      · exact .folder hn hi (ih h)
      · obtain ⟨fewer, rfl, hlost⟩ := hb _ _ h
        exact .link hn hi hl hlost

theorem walk_lost : Missing (d.walk .follow links here steps) ↔ d.Lost links here steps := by
  rw [walk_eq_stride]
  refine ⟨fun h => ?_, Lost.stride⟩
  induction links generalizing here steps with
  | zero => exact lost_of_stride (fun _ _ h => by simp [beyond, Missing, Errno.linkLoop, Errno.noEntry] at h) h
  | succ links ih =>
    refine lost_of_stride (fun here steps h => ⟨links, rfl, ih ?_⟩) h
    rwa [← walk_eq_stride]

theorem Missing.ne_linkLoop {r : Except Errno Spot} (h : Missing r) : r ≠ .error .linkLoop := by
  rintro rfl
  exact absurd h (by decide : Errno.linkLoop ≠ Errno.noEntry)

theorem Lost.more (h : d.Lost links here steps) {more : Nat} (hm : links ≤ more) : d.Lost more here steps := by
  have hwalk := walk_lost.mpr h
  rwa [← walk_lost, walk_more hm hwalk.ne_linkLoop]

/-- A walk is lost in its first part, or behind the folder that the first part leads to. -/
theorem Lost.split (hd : d.WellFormed) (h : d.Lost links here (before ++ after)) (hf : d.isFolderAt here) :
    d.Lost links here before ∨ ∃ mid fewer, fewer ≤ links ∧ d.Route .follow links here before mid ∧
      d.Lost fewer mid after ∧ d.isFolderAt mid := by
  generalize hs : before ++ after = steps at h
  induction h generalizing before with
  | stay hrest ih =>
    rcases before with _ | ⟨step, before⟩
    · obtain rfl : after = _ := hs
      exact .inr ⟨_, _, Nat.le_refl _, .done, .stay hrest, hf⟩
    · obtain ⟨rfl, hrest⟩ := List.cons.inj hs
      exact (ih hf hrest).imp .stay fun ⟨mid, fewer, hle, hr, hmid⟩ => ⟨mid, fewer, hle, .stay hr, hmid⟩
  | slash hrest ih =>
    rcases before with _ | ⟨step, before⟩
    · obtain rfl : after = _ := hs
      exact .inr ⟨_, _, Nat.le_refl _, .done, .slash hrest, hf⟩
    · obtain ⟨rfl, hrest⟩ := List.cons.inj hs
      exact (ih hf hrest).imp .slash fun ⟨mid, fewer, hle, hr, hmid⟩ => ⟨mid, fewer, hle, .slash hr, hmid⟩
  | up hrest ih =>
    rcases before with _ | ⟨step, before⟩
    · obtain rfl : after = _ := hs
      exact .inr ⟨_, _, Nat.le_refl _, .done, .up hrest, hf⟩
    · obtain ⟨rfl, hrest⟩ := List.cons.inj hs
      exact (ih (hd.isFolderAt_dropLast hf) hrest).imp .up fun ⟨mid, fewer, hle, hr, hmid⟩ =>
        ⟨mid, fewer, hle, .up hr, hmid⟩
  | missing hn hi =>
    rcases before with _ | ⟨step, before⟩
    · obtain rfl : after = _ := hs
      exact .inr ⟨_, _, Nat.le_refl _, .done, .missing hn hi, hf⟩
    · obtain ⟨rfl, -⟩ := List.cons.inj hs
      exact .inl (.missing hn hi)
  | folder hn hi hrest ih =>
    rcases before with _ | ⟨step, before⟩
    · obtain rfl : after = _ := hs
      exact .inr ⟨_, _, Nat.le_refl _, .done, .folder hn hi hrest, hf⟩
    · obtain ⟨rfl, hrest⟩ := List.cons.inj hs
      exact (ih (isFolderAt_of_item hi) hrest).imp (.folder hn hi) fun ⟨mid, fewer, hle, hr, hmid⟩ =>
        ⟨mid, fewer, hle, .folder (by simp) hn hi hr, hmid⟩
  | @link _ _ _ _ target _ hn hi hl hrest ih =>
    rcases before with _ | ⟨step, before⟩
    · obtain rfl : after = _ := hs
      exact .inr ⟨_, _, Nat.le_refl _, .done, .link hn hi hl hrest, hf⟩
    · obtain ⟨rfl, hrest⟩ := List.cons.inj hs
      have hbehind := @ih (target.steps ++ before) (hd.isFolderAt_base hi target)
        (by rw [← hrest, List.append_assoc]; rfl)
      exact hbehind.imp (.link hn hi hl) fun ⟨mid, fewer, hle, hr, hmid⟩ =>
        ⟨mid, fewer, Nat.le_succ_of_le hle, .link (by simp) hn hi hl (by simp) hr, hmid⟩

theorem Lost.idle {idle : List Step} (hidle : ∀ step ∈ idle, step.isMove = false) (h : d.Lost links here steps) :
    d.Lost links here (idle ++ steps) := by
  induction idle with
  | nil => exact h
  | cons step idle ih =>
    have hrest := ih fun other hmem => hidle other (List.mem_cons_of_mem _ hmem)
    have hstep := hidle step List.mem_cons_self
    cases step with
    | stay => exact .stay hrest
    | slash => exact .slash hrest
    | up | down _ => cases hstep

theorem Lost.congr (h : d.Lost links here steps) (hsame : steps.filter Step.isMove = steps'.filter Step.isMove) :
    d.Lost links here steps' := by
  -- The next move stands somewhere in the other steps, behind some that are no moves.
  have hnext {step : Step} {rest steps' : List Step} (hstep : step.isMove = true)
      (hsame : (step :: rest).filter Step.isMove = steps'.filter Step.isMove) :
      ∃ idle rest', steps' = idle ++ step :: rest' ∧ (∀ other ∈ idle, other.isMove = false) ∧
        rest.filter Step.isMove = rest'.filter Step.isMove := by
    rw [List.filter_cons_of_pos hstep] at hsame
    obtain ⟨idle, rest', rfl, hidle, -, hrest⟩ := List.filter_eq_cons_iff.mp hsame.symm
    exact ⟨idle, rest', rfl, by simpa using hidle, hrest.symm⟩
  induction h generalizing steps' with
  | stay _ ih => exact ih hsame
  | slash _ ih => exact ih hsame
  | up _ ih =>
    obtain ⟨idle, rest', rfl, hidle, hrest⟩ := hnext rfl hsame
    exact .idle hidle (.up (ih hrest))
  | missing hn hi =>
    obtain ⟨idle, rest', rfl, hidle, -⟩ := hnext rfl hsame
    exact .idle hidle (.missing hn hi)
  | folder hn hi _ ih =>
    obtain ⟨idle, rest', rfl, hidle, hrest⟩ := hnext rfl hsame
    exact .idle hidle (.folder hn hi (ih hrest))
  | link hn hi hl _ ih =>
    obtain ⟨idle, rest', rfl, hidle, hrest⟩ := hnext rfl hsame
    exact .idle hidle (.link hn hi hl (ih (by rw [List.filter_append, List.filter_append, hrest])))

-- ---------------------------------------------------------------------------
-- Walks on a disk that has shrunk
-- ---------------------------------------------------------------------------

/-- The end of a walk on `d'` for want of an entry that `d` has. -/
def Gone (d d' : Disk) (finish : Except Errno Spot) : Prop :=
  finish = .error .noEntry ∨ ∃ folder n, finish = .ok (.free folder n) ∧
    (d.item? (folder ++ [n])).isSome ∧ d'.item? (folder ++ [n]) = none

theorem Gone.missing {finish : Except Errno Spot} (h : d.Gone d' finish) : Missing finish := by
  rcases h with rfl | ⟨folder, n, rfl, -, -⟩
  · rfl
  · trivial

theorem stride_within {through through' : Place → List Step → Except Errno Spot} (hw : d'.Within d)
    (hb : ∀ here steps, through' here steps = through here steps ∨ d.Gone d' (through' here steps)) :
    d'.stride .follow through' here steps = d.stride .follow through here steps ∨
      d.Gone d' (d'.stride .follow through' here steps) := by
  induction steps generalizing here with
  | nil => exact .inl rfl
  | cons step rest ih =>
    cases step with
    | stay => exact ih
    | slash => exact ih
    | up => exact ih
    | down n =>
      have hcreate : ¬ (Final.follow = .create ∧ rest = [.slash]) := by simp
      rw [stride, stride]
      by_cases hn : Text.utf8Size n > nameLimit
      · exact .inl (by simp only [if_neg hcreate, if_pos hn])
      simp only [if_neg hcreate, if_neg hn]
      cases hi : d'.item? (here ++ [n]) with
      | some item =>
        rw [hw.item hi]
        cases item with
        | folder mode => exact ih
        | leaf id =>
          simp only [hw.node hi]
          cases hnode : d'.node id with
          | link target => simpa using hb _ _
          | file _ _ | device _ | kernel _ _ => exact .inl rfl
      | none =>
        simp only
        by_cases hfree : rest = [] ∧ d'.isFolderAt here = true
        · have hfree' : rest = [] ∧ d.isFolderAt here = true := ⟨hfree.1, hw.isFolderAt hfree.2⟩
          simp only [if_pos hfree]
          cases hi' : d.item? (here ++ [n]) with
          | none => exact .inl (by simp only [if_pos hfree'])
          | some item => exact .inr (.inr ⟨here, n, rfl, by simp [hi'], hi⟩)
        · exact .inr (.inl (by simp only [if_neg hfree]))

/-- Without some of the entries a walk ends as it did, or one of them is missing. -/
theorem walk_within (hw : d'.Within d) : d'.walk .follow links here steps = d.walk .follow links here steps ∨
    d.Gone d' (d'.walk .follow links here steps) := by
  rw [walk_eq_stride, walk_eq_stride]
  induction links generalizing here steps with
  | zero => exact stride_within hw fun _ _ => .inl rfl
  | succ links ih =>
    refine stride_within hw fun here steps => ?_
    rw [beyond, beyond, walk_eq_stride, walk_eq_stride]
    exact ih

end Disk

end SafeFiles
