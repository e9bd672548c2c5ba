import Mathlib.Data.List.Infix
import SafeFiles.Proofs.Path.ParentLaws

/-!
# The order of paths

The ancestors of a path have the beginnings of its components, the longest first,
down to the empty one, or to the lone root of an absolute path
(`map_components_ancestors`). So a path is an ancestor of another if its components
begin those of the other, and up to their spelling paths are partially ordered, the
ancestors of one path in a chain.
-/

namespace SafeFiles

namespace Path

variable {a b c p : Path} {lead : Lead} {pieces : List Text} {front cs : List Component}

-- ---------------------------------------------------------------------------
-- Beginnings
-- ---------------------------------------------------------------------------

/-- The beginnings of a list of components, the longest first. Nothing comes before a root. -/
def beginnings (cs : List Component) : List (List Component) :=
  (if .root ∈ cs then cs.inits.tail else cs.inits).reverse

theorem mem_beginnings : front ∈ beginnings cs ↔ front <+: cs ∧ (.root ∈ cs → front ≠ []) := by
  rw [beginnings, List.mem_reverse]
  split
  · rename_i hroot
    cases cs with
    | nil => cases hroot
    | cons c rest =>
      simp only [List.inits_cons, List.tail_cons, List.mem_map, List.mem_inits, hroot, true_implies]
      constructor
      · rintro ⟨more, hmore, rfl⟩
        exact ⟨(List.prefix_cons_inj c).mpr hmore, List.cons_ne_nil c more⟩
      · rintro ⟨hfront, hne⟩
        obtain ⟨more, rfl, hmore⟩ := (List.prefix_cons_iff.mp hfront).resolve_left hne
        exact ⟨more, hmore, rfl⟩
  · rename_i hroot
    simp [hroot]

theorem beginnings_concat {last : Component} (h : last ≠ .root) :
    beginnings (cs ++ [last]) = (cs ++ [last]) :: beginnings cs := by
  have hroot : .root ∈ cs ++ [last] ↔ .root ∈ cs := by simp [Ne.symm h]
  have hne : cs.inits ≠ [] := List.ne_nil_of_mem ((List.mem_inits [] cs).mpr List.nil_prefix)
  have hinits : (cs ++ [last]).inits = cs.inits ++ [cs ++ [last]] := by simp [List.inits_append]
  simp only [beginnings, hroot, hinits]
  split
  · rw [List.tail_append_of_ne_nil hne, List.reverse_concat]
  · rw [List.reverse_concat]

-- ---------------------------------------------------------------------------
-- Ancestors
-- ---------------------------------------------------------------------------

theorem ne_root_of_ofPiece? {piece : Text} {c : Component} (h : Component.ofPiece? piece = some c) : c ≠ .root := by
  unfold Component.ofPiece? at h
  split at h
  · cases h
  split at h
  all_goals
    cases h
    simp

/-- Dropping the pieces from the end one by one, idle ones along with those before them, goes through all
beginnings of the components. -/
theorem map_components_shorter (hfit : Fit lead pieces.reverse)
    (hfirst : lead = .none → ∀ first ∈ pieces.reverse.head?, isIdle first = false) :
    (lead.components ++ pieces.reverse.filterMap Component.ofPiece?) :: (shorter lead pieces).map components =
      beginnings (lead.components ++ pieces.reverse.filterMap Component.ofPiece?) := by
  induction pieces with
  | nil => cases lead <;> rfl
  | cons piece before ih =>
    rw [List.reverse_cons] at hfit hfirst ⊢
    have hfit' : Fit lead before.reverse := hfit.of_prefix (List.prefix_append _ _)
    have hfirst' (hlead : lead = .none) : ∀ first ∈ before.reverse.head?, isIdle first = false := fun first hmem =>
      hfirst hlead first (head?_of_begins (List.prefix_append _ _) hmem)
    have hbefore := ih hfit' hfirst'
    rw [List.filterMap_append, shorter]
    cases hpiece : Component.ofPiece? piece with
    | none => simpa [isIdle, hpiece] using hbefore
    | some c =>
      have hcs : (assemble lead (trimIdle before.reverse)).components =
          lead.components ++ before.reverse.filterMap Component.ofPiece? := by
        rw [components_assemble (hfit'.of_prefix (trimIdle_begins _)), filterMap_trimIdle]
        exact fun hlead first hmem => hfirst' hlead first (head?_of_begins (trimIdle_begins _) hmem)
      simp only [isIdle, hpiece, Option.isNone_some, Bool.false_eq_true, if_false, List.map_cons, hcs, hbefore,
        List.filterMap_cons, List.filterMap_nil]
      rw [← List.append_assoc, beginnings_concat (ne_root_of_ofPiece? hpiece)]

theorem map_components_ancestors (p : Path) : p.ancestors.map components = beginnings p.components := by
  have hfit := (parts_spec p).1
  rw [ancestors, properAncestors, List.map_cons, components]
  rw [← List.reverse_reverse p.parts.2] at hfit
  have hall := map_components_shorter hfit (by rw [List.reverse_reverse]; exact first_not_idle p)
  rwa [List.reverse_reverse] at hall

theorem components_eq_nil_iff : p.components = [] ↔ p = [] := by
  refine ⟨fun h => ?_, fun h => h ▸ rfl⟩
  by_contra hne
  exact components_ne_nil hne h

theorem isAncestor_iff : a.isAncestor b = true ↔
    a.components <+: b.components ∧ (b.isAbsolute = true → a ≠ []) := by
  have hmem : a.isAncestor b = true ↔ a.components ∈ b.ancestors.map components := by
    simp [isAncestor, same]
  rw [hmem, map_components_ancestors, mem_beginnings, isAbsolute_iff_mem, ne_eq, components_eq_nil_iff]

-- ---------------------------------------------------------------------------
-- The order
-- ---------------------------------------------------------------------------

theorem same_iff : a.same b = true ↔ a.components = b.components := decide_eq_true_iff

theorem isAncestor_of_same (h : a.same b = true) : a.isAncestor b = true := by
  have hcs := same_iff.mp h
  refine isAncestor_iff.mpr ⟨hcs ▸ List.prefix_rfl, fun habs hnil => ?_⟩
  rw [← isAbsolute_congr hcs, hnil] at habs
  cases habs

theorem isAbsolute_of_begins (h : a.components <+: b.components) (ha : a.isAbsolute = true) : b.isAbsolute = true :=
  isAbsolute_iff_mem.mpr (h.subset (isAbsolute_iff_mem.mp ha))

theorem isAbsolute_of_isAncestor (h : a.isAncestor b = true) (hb : b.isAbsolute = true) : a.isAbsolute = true := by
  obtain ⟨hbegin, hne⟩ := isAncestor_iff.mp h
  obtain ⟨first, rest, ha⟩ := List.exists_cons_of_ne_nil (components_ne_nil (hne hb))
  obtain ⟨inner, -, hcs, -⟩ := components_of_isAbsolute hb
  rw [ha, hcs] at hbegin
  obtain ⟨rfl, -⟩ := List.cons_prefix_cons.mp hbegin
  exact isAbsolute_iff_mem.mpr (ha ▸ List.mem_cons_self)

theorem isAncestor_trans (hab : a.isAncestor b = true) (hbc : b.isAncestor c = true) : a.isAncestor c = true := by
  refine isAncestor_iff.mpr ⟨(isAncestor_iff.mp hab).1.trans (isAncestor_iff.mp hbc).1, fun hc => ?_⟩
  exact (isAncestor_iff.mp hab).2 (isAbsolute_of_isAncestor hbc hc)

theorem same_of_isAncestor (hab : a.isAncestor b = true) (hba : b.isAncestor a = true) : a.same b = true := by
  obtain ⟨hab, -⟩ := isAncestor_iff.mp hab
  obtain ⟨hba, -⟩ := isAncestor_iff.mp hba
  exact same_iff.mpr (hab.eq_of_length_le hba.length_le)

theorem isAncestor_or (hac : a.isAncestor c = true) (hbc : b.isAncestor c = true) :
    a.isAncestor b = true ∨ b.isAncestor a = true := by
  obtain ⟨ha, hane⟩ := isAncestor_iff.mp hac
  obtain ⟨hb, hbne⟩ := isAncestor_iff.mp hbc
  rcases List.prefix_or_prefix_of_prefix ha hb with hab | hba
  · exact .inl (isAncestor_iff.mpr ⟨hab, fun h => hane (isAbsolute_of_begins hb h)⟩)
  · exact .inr (isAncestor_iff.mpr ⟨hba, fun h => hbne (isAbsolute_of_begins ha h)⟩)

/-- An ancestor is a path whose components begin those of the other, but for the empty path in front of an
absolute one. Up to equality of paths this is a partial order, and the ancestors of one path are a chain. -/
theorem isAncestor_partial_order (a b c : Path) :
    (a.isAncestor b = true ↔ a.components <+: b.components ∧ (b.isAbsolute = true → a ≠ [])) ∧
    (a.same b = true → a.isAncestor b = true) ∧
    (a.isAncestor b = true → b.isAncestor c = true → a.isAncestor c = true) ∧
    (a.isAncestor b = true → b.isAncestor a = true → a.same b = true) ∧
    (a.isAncestor c = true → b.isAncestor c = true → a.isAncestor b = true ∨ b.isAncestor a = true) :=
  ⟨isAncestor_iff, isAncestor_of_same, isAncestor_trans, same_of_isAncestor, isAncestor_or⟩

/-- Three spellings above one path, the first two of them of the same folder. -/
theorem isAncestor_partial_order_spelled : isAncestor "//a/".toList "/a/.".toList = true ∧
    isAncestor "/a/.".toList "//a/".toList = true ∧ isAncestor "/a/.".toList "/./a//b/../".toList = true ∧
    isAncestor "//a/".toList "/./a//b/../".toList = true ∧ same "//a/".toList "/a/.".toList = true := by
  obtain ⟨-, hsame, htrans, hanti, -⟩ := isAncestor_partial_order "//a/".toList "/a/.".toList "/./a//b/../".toList
  obtain ⟨-, hback, -, -, -⟩ := isAncestor_partial_order "/a/.".toList "//a/".toList []
  have hab := hsame (by decide)
  have hba := hback (by decide)
  exact ⟨hab, hba, by decide, htrans hab (by decide), hanti hab hba⟩

end Path

end SafeFiles
