import SafeFiles.Proofs.Path.ParentLaws

/-!
# Spellings

Components that the system takes can be put together and come apart again
(`components_ofComponents`). A place has one canonical spelling, put together from
its names, and the names joined to it one by one spell what stands below.
-/

namespace SafeFiles

namespace Component

def IsClean : Component → Prop
  | .root | .here => False
  | .up => True
  | .name n => n.IsPlain

variable {c : Component} {names : List Name}

theorem IsClean.isInner (h : c.IsClean) : c.IsInner := by
  cases c with
  | root | here => cases h
  | up => trivial
  | name n => exact ⟨h.1, h.2.1, h.2.2.1, h.2.2.2.1⟩

theorem plain_foldl_replay {cs : List Component} (hcs : ∀ c ∈ cs, c.IsClean) {here : Place}
    (h : ∀ n ∈ here, n.IsPlain) : ∀ n ∈ cs.foldl replay here, n.IsPlain := by
  induction cs generalizing here with
  | nil => exact h
  | cons c cs ih =>
    refine ih (fun c hc => hcs c (List.mem_cons_of_mem _ hc)) ?_
    have hc := hcs c List.mem_cons_self
    cases c with
    | root | here => cases hc
    | up => exact fun n hn => h n ((List.dropLast_sublist here).subset hn)
    | name m =>
      intro n hn
      rcases List.mem_append.mp hn with hn | hn
      · exact h n hn
      · exact List.mem_singleton.mp hn ▸ hc

end Component

namespace Path

variable {cs : List Component} {names : List Name} {p : Path}

theorem filter_step? (h : ∀ c ∈ cs, c.IsClean) :
    (cs.filterMap Component.step?).filter (· ≠ .stay) = cs.filterMap Component.step? := by
  refine List.filter_eq_self.mpr fun step hstep => ?_
  obtain ⟨c, hc, hstep⟩ := List.mem_filterMap.mp hstep
  obtain ⟨step', hstep', hne⟩ := Component.step?_isSome (h c hc).isInner
  obtain rfl : step' = step := Option.some.inj (hstep'.symm.trans hstep)
  simpa using hne

theorem components_ofComponents (h : ∀ c ∈ cs, c.IsClean) : (ofComponents (.root :: cs)).components = .root :: cs := by
  have hinner : ∀ c ∈ cs, c.IsInner := fun c hc => (h c hc).isInner
  obtain ⟨inner, hin, hcs, hmoves⟩ := components_of_isAbsolute (ofComponents_spec hinner).1
  have hbare : (ofComponents (.root :: cs)).bare = cs.filterMap Component.step? := bare_foldl_text ['/'] hinner
  rw [← filter_bare, hbare, filter_step? h] at hmoves
  rw [hcs, inner_ext hinner hin hmoves]

theorem hasNul_ofComponents (h : ∀ c ∈ cs, c.IsClean) : (ofComponents (.root :: cs)).hasNul = false := by
  rw [← Bool.not_eq_true, hasNul_iff, components_ofComponents h]
  rintro ⟨n, hn, hnul⟩
  rcases List.mem_cons.mp hn with hroot | hn
  · cases hroot
  · exact (h _ hn : n.IsPlain).2.2.2.2 hnul

end Path

namespace Place

variable {names front rest : List Name} {n : Name}

theorem path_append (h : front ≠ []) (rest : List Name) :
    path (front ++ rest) = path front ++ rest.flatMap ('/' :: ·) := by
  obtain ⟨m, front, rfl⟩ := List.exists_cons_of_ne_nil h
  exact List.flatMap_append

theorem startsWithText_path (h : front ≠ []) (rest : List Name) :
    (path (front ++ rest)).startsWithText (path front) := by
  rw [path_append h]
  exact List.isPrefixOf_iff_prefix.mpr (List.prefix_append _ _)

end Place

end SafeFiles
