import SafeFiles.Proofs.Path.ComponentLaws
import SafeFiles.Proofs.Path.JoinLaws

/-!
# Names joined to a path, and the parent

A name that is joined to a path is its last component, and the parent of the new
path has the components of the old one. Its text may differ: slashes and dots at
the end are gone.
-/

namespace SafeFiles

theorem Text.pieces_joinWith {sep : Char} {pieces : List Text} (hne : pieces ≠ [])
    (h : ∀ piece ∈ pieces, sep ∉ piece) : Text.pieces sep (joinWith sep pieces) = pieces := by
  induction pieces with
  | nil => exact absurd rfl hne
  | cons piece others ih =>
    have hpiece := pieces_of_not_mem (h piece List.mem_cons_self)
    cases others with
    | nil => exact hpiece
    | cons next others =>
      rw [joinWith, pieces_append, hpiece, ih (by simp) fun q hq => h q (List.mem_cons_of_mem _ hq)]
      · rfl
      · simp

theorem Text.mem_joinWith {sep c : Char} (hc : c ≠ sep) {pieces : List Text} :
    c ∈ joinWith sep pieces ↔ ∃ piece ∈ pieces, c ∈ piece := by
  induction pieces with
  | nil => simp [joinWith]
  | cons piece others ih =>
    cases others with
    | nil => simp [joinWith]
    | cons next others => simp [joinWith, hc, ih]

namespace Path

variable {p q a : Path} {n : Name} {rel rel' : List Name} {lead : Lead} {pieces before : List Text} {piece : Text}
  {steps : List Step}

-- ---------------------------------------------------------------------------
-- The parts of a longer path
-- ---------------------------------------------------------------------------

theorem pieces_eq_nil_iff : Text.pieces '/' p = [[]] ↔ p = [] := by
  constructor
  · intro h
    have hjoin := Text.joinWith_pieces '/' p
    rw [h] at hjoin
    exact hjoin.symm
  · rintro rfl
    rfl

theorem parts_cases (hp : p ≠ []) :
    (∃ rest, Text.pieces '/' p = [] :: rest ∧ p.parts = (.root, rest)) ∨
    (∃ rest, Text.pieces '/' p = ['.'] :: rest ∧ p.parts = (.here, rest)) ∨
    ∃ first rest, Text.pieces '/' p = first :: rest ∧ isIdle first = false ∧ p.parts = (.none, first :: rest) := by
  obtain ⟨first, rest, hpieces⟩ := List.exists_cons_of_ne_nil (Text.pieces_ne_nil '/' p)
  by_cases hempty : first = []
  · subst hempty
    refine .inl ⟨rest, hpieces, ?_⟩
    cases rest with
    | nil => exact absurd (pieces_eq_nil_iff.mp hpieces) hp
    | cons _ _ => rw [parts, hpieces]
  by_cases hdot : first = ['.']
  · subst hdot
    exact .inr (.inl ⟨rest, hpieces, by rw [parts, hpieces]; rfl⟩)
  · refine .inr (.inr ⟨first, rest, hpieces, ?_, ?_⟩)
    · rw [isIdle, Component.ofPiece?, if_neg (by simp [hempty, hdot])]
      split <;> rfl
    · rw [parts, hpieces]
      split <;> simp_all

theorem parts_of_pieces {first : Text} {rest : List Text} (h : Text.pieces '/' p = first :: rest)
    (hidle : isIdle first = false) : p.parts = (.none, first :: rest) := by
  rw [parts, h]
  split <;> simp_all [isIdle, Component.ofPiece?]

theorem parts_append_slash (hp : p ≠ []) (t : Text) :
    (p ++ '/' :: t).parts = (p.parts.1, p.parts.2 ++ Text.pieces '/' t) := by
  have hmore := Text.pieces_append '/' p t
  rcases parts_cases hp with ⟨rest, hpieces, hparts⟩ | ⟨rest, hpieces, hparts⟩ | ⟨first, rest, hpieces, hidle, hparts⟩
  · obtain ⟨next, others, hnext⟩ := List.exists_cons_of_ne_nil
      (List.append_ne_nil_of_right_ne_nil rest (Text.pieces_ne_nil '/' t))
    rw [hpieces, List.cons_append, hnext] at hmore
    rw [hparts, hnext, parts, hmore]
  · rw [hpieces] at hmore
    rw [hparts, parts, hmore]
    rfl
  · rw [hpieces] at hmore
    rw [hparts, parts_of_pieces hmore hidle]
    rfl

theorem parts_slash (t : Text) : parts ('/' :: t) = (.root, Text.pieces '/' t) := by
  obtain ⟨first, others, hpieces⟩ := List.exists_cons_of_ne_nil (Text.pieces_ne_nil '/' t)
  simp [parts, Text.pieces, hpieces]

theorem first_not_idle (p : Path) (h : p.parts.1 = .none) : ∀ first ∈ p.parts.2.head?, isIdle first = false := by
  intro first hfirst
  by_cases hp : p = []
  · subst hp
    cases hfirst
  rcases parts_cases hp with ⟨_, -, hparts⟩ | ⟨_, -, hparts⟩ | ⟨head, rest, -, hhead, hparts⟩
  · rw [hparts] at h
    cases h
  · rw [hparts] at h
    cases h
  · rw [hparts] at hfirst
    cases hfirst
    exact hhead

theorem components_ne_nil (h : p ≠ []) : p.components ≠ [] := by
  rw [components]
  rcases parts_cases h with ⟨rest, -, hparts⟩ | ⟨rest, -, hparts⟩ | ⟨first, rest, -, hidle, hparts⟩ <;> rw [hparts]
  · simp [Lead.components]
  · simp [Lead.components]
  · obtain ⟨c, hc⟩ : ∃ c, Component.ofPiece? first = some c :=
      Option.isSome_iff_exists.mp (by simpa [isIdle] using hidle)
    simp [hc]

-- ---------------------------------------------------------------------------
-- Paths of the same components
-- ---------------------------------------------------------------------------

theorem isAbsolute_iff_mem : p.isAbsolute = true ↔ .root ∈ p.components := by
  rw [(parts_spec p).2.1]
  obtain ⟨inner, hinner, hcs, -⟩ := components_spec p
  have hroot : .root ∉ inner := fun h => hinner _ h
  cases hlead : p.parts.1 <;> simp [hcs, hlead, Lead.components, hroot]

theorem isAbsolute_congr (h : p.components = q.components) : p.isAbsolute = q.isAbsolute := by
  rw [Bool.eq_iff_iff, isAbsolute_iff_mem, h, isAbsolute_iff_mem]

theorem ofPiece?_eq_name : Component.ofPiece? piece = some (.name n) ↔
    piece = n ∧ n ≠ [] ∧ n ≠ ['.'] ∧ n ≠ ['.', '.'] := by
  by_cases hempty : piece = []
  · simp only [Component.ofPiece?, hempty, true_or, if_true, reduceCtorEq, false_iff]
    rintro ⟨rfl, hne, -⟩
    exact hne rfl
  by_cases hdot : piece = ['.']
  · simp only [Component.ofPiece?, hdot, or_true, if_true, reduceCtorEq, false_iff]
    rintro ⟨rfl, -, hne, -⟩
    exact hne rfl
  by_cases hdots : piece = ['.', '.']
  · subst hdots
    simp only [Component.ofPiece?, hempty, hdot, or_self, if_false, if_true, Option.some.injEq, reduceCtorEq,
      false_iff]
    rintro ⟨rfl, -, -, hne⟩
    exact hne rfl
  · simp only [Component.ofPiece?, hempty, hdot, hdots, or_self, if_false, Option.some.injEq, Component.name.injEq]
    exact ⟨fun h => ⟨h, h ▸ hempty, h ▸ hdot, h ▸ hdots⟩, fun h => h.1⟩

theorem name_mem_components : .name n ∈ p.components ↔
    n ∈ Text.pieces '/' p ∧ n ≠ [] ∧ n ≠ ['.'] ∧ n ≠ ['.', '.'] := by
  by_cases hp : p = []
  · subst hp
    simpa [components, parts, Text.pieces, Lead.components] using fun h hne => absurd h hne
  · rcases parts_cases hp with ⟨rest, hpieces, hparts⟩ | ⟨rest, hpieces, hparts⟩ | ⟨_, rest, hpieces, -, hparts⟩
    all_goals
      rw [components, hparts, hpieces]
      simp only [Lead.components, List.mem_append, List.mem_filterMap, ofPiece?_eq_name]
      aesop

theorem hasNul_iff : p.hasNul = true ↔ ∃ n, .name n ∈ p.components ∧ '\x00' ∈ n := by
  simp only [hasNul, List.contains_eq_mem, decide_eq_true_iff, name_mem_components]
  constructor
  · intro h
    rw [← Text.joinWith_pieces '/' p, Text.mem_joinWith (by decide)] at h
    obtain ⟨piece, hpiece, hnul⟩ := h
    refine ⟨piece, ⟨hpiece, ?_, ?_, ?_⟩, hnul⟩ <;> rintro rfl <;> simp at hnul
  · rintro ⟨n, ⟨hpiece, -⟩, hnul⟩
    exact (Text.mem_pieces hpiece).2 _ hnul

theorem hasNul_congr (h : p.components = q.components) : p.hasNul = q.hasNul := by
  rw [Bool.eq_iff_iff, hasNul_iff, h, hasNul_iff]

theorem components_assemble (h : Fit lead pieces)
    (hfirst : lead = .none → ∀ first ∈ pieces.head?, isIdle first = false) :
    (assemble lead pieces).components = lead.components ++ pieces.filterMap Component.ofPiece? := by
  cases lead with
  | root =>
    rw [components, assemble, parts_slash]
    by_cases hne : pieces = []
    · subst hne
      rfl
    · rw [Text.pieces_joinWith hne h.slash]
  | here =>
    have hparts : parts ('.' :: pieces.flatMap ('/' :: ·)) = (.here, pieces) := by
      clear hfirst
      induction pieces using List.reverseRecOn with
      | nil => rfl
      | append_singleton before piece ih =>
        have hpiece := h.slash piece (by simp)
        have hbefore := ih <| h.of_prefix (List.prefix_append before [piece])
        rw [List.flatMap_append, List.flatMap_singleton, ← List.cons_append, parts_append_slash (by simp),
          hbefore, Text.pieces_of_not_mem hpiece]
    rw [components, assemble, hparts]
  | none =>
    rw [components, assemble]
    cases pieces with
    | nil => rfl
    | cons first rest =>
      rw [parts_of_pieces (Text.pieces_joinWith (by simp) h.slash) (hfirst rfl first rfl)]

-- ---------------------------------------------------------------------------
-- A joined name
-- ---------------------------------------------------------------------------

theorem ofPiece?_of_plain (hn : n.IsPlain) : Component.ofPiece? n = some (.name n) := by
  rw [Component.ofPiece?, if_neg (by simp [hn.1, hn.2.1]), if_neg hn.2.2.1]

theorem exists_parts_join (hp : p ≠ []) (hn : n.IsPlain) : ∃ pieces, (p.join n).parts = (p.parts.1, pieces ++ [n]) ∧
    pieces <+: p.parts.2 ∧ p.components = p.parts.1.components ++ pieces.filterMap Component.ofPiece? := by
  have hpieces : Text.pieces '/' n = [n] := Text.pieces_of_not_mem hn.2.2.2.1
  rw [join, if_neg (by simp [not_isAbsolute_of_plain hn])]
  split
  · rename_i hend
    obtain ⟨front, rfl⟩ : ∃ front, p = front ++ ['/'] :=
      List.getLast?_eq_some_iff.mp (by simpa [endsInSlash] using hend.resolve_left hp)
    have happend : front ++ ['/'] ++ n = front ++ '/' :: n := by simp
    rw [happend]
    by_cases hfront : front = []
    · subst hfront
      exact ⟨[], by rw [List.nil_append, parts_slash, hpieces]; rfl, by simp, rfl⟩
    · refine ⟨front.parts.2, ?_, ?_, ?_⟩
      · rw [parts_append_slash hfront, parts_append_slash hfront, hpieces]
      · rw [parts_append_slash hfront]
        exact List.prefix_append _ _
      · rw [components, parts_append_slash hfront, List.filterMap_append]
        simp [Text.pieces, Component.ofPiece?]
  · exact ⟨p.parts.2, by rw [parts_append_slash hp, hpieces], List.prefix_rfl, rfl⟩

theorem components_join (hp : p ≠ []) (hn : n.IsPlain) :
    (p.join n).components = p.components ++ [.name n] := by
  obtain ⟨pieces, hparts, -, hcs⟩ := exists_parts_join hp hn
  rw [hcs, components, hparts, List.filterMap_append, List.append_assoc]
  simp [ofPiece?_of_plain hn]

theorem fileName?_join (hp : p ≠ []) (hn : n.IsPlain) : (p.join n).fileName? = some n := by
  rw [fileName?, components_join hp hn, List.getLast?_concat]

-- ---------------------------------------------------------------------------
-- The first ancestor of a longer path
-- ---------------------------------------------------------------------------

def trimmed (p : Path) : Path := assemble p.parts.1 (trimIdle p.parts.2)

theorem assemble_parts (p : Path) : assemble p.parts.1 p.parts.2 = p := by
  have hwhole := Text.joinWith_pieces '/' p
  by_cases hp : p = []
  · subst hp
    rfl
  rcases parts_cases hp with ⟨rest, hpieces, hparts⟩ | ⟨rest, hpieces, hparts⟩ | ⟨first, rest, hpieces, -, hparts⟩
  · rw [hpieces] at hwhole
    cases rest with
    | nil => exact absurd hwhole.symm hp
    | cons next rest => simpa [hparts, assemble, Text.joinWith] using hwhole
  · have hdots (before : Text) (pieces : List Text) :
        before ++ pieces.flatMap ('/' :: ·) = Text.joinWith '/' (before :: pieces) := by
      induction pieces generalizing before with
      | nil => simp [Text.joinWith]
      | cons piece pieces ih => simpa [Text.joinWith] using ih piece
    rw [hpieces] at hwhole
    rw [hparts, ← hwhole]
    exact hdots ['.'] rest
  · rw [hpieces] at hwhole
    rw [hparts, ← hwhole]
    rfl

theorem assemble_begins (h : before <+: pieces) : assemble lead before <+: assemble lead pieces := by
  have hjoin : Text.joinWith '/' before <+: Text.joinWith '/' pieces := by
    induction pieces generalizing before with
    | nil => simp [List.prefix_nil.mp h]
    | cons piece pieces ih =>
      rcases List.prefix_cons_iff.mp h with rfl | ⟨rest, rfl, hrest⟩
      · exact List.nil_prefix
      · cases pieces with
        | nil => simp [List.prefix_nil.mp hrest]
        | cons next pieces =>
          cases rest with
          | nil => exact List.prefix_append piece _
          | cons other rest => simpa [Text.joinWith] using ih hrest
  cases lead with
  | root => exact (List.prefix_cons_inj '/').mpr hjoin
  | here =>
    obtain ⟨rest, rfl⟩ := h
    simp [assemble]
  | none => exact hjoin

theorem trimmed_begins (p : Path) : p.trimmed <+: p := by
  have hp : assemble p.parts.1 (trimIdle p.parts.2) <+: assemble p.parts.1 p.parts.2 :=
    assemble_begins (trimIdle_begins _)
  rwa [assemble_parts] at hp

theorem isAbsolute_trimmed (p : Path) : p.trimmed.isAbsolute = p.isAbsolute := by
  obtain ⟨hfit, habs, -⟩ := parts_spec p
  rw [Bool.eq_iff_iff, trimmed, isAbsolute_assemble (hfit.of_prefix (trimIdle_begins _)), habs]

/-- If a name is the last that counts, no dots are behind it, and only slashes are trimmed off. -/
theorem bare_trimmed (h : p.bare = steps ++ [.down n]) : p.trimmed.bare = p.bare := by
  obtain ⟨hfit, -, hbare⟩ := parts_spec p
  obtain ⟨idle, hpieces, hidle⟩ := exists_idle p.parts.2
  have hstay : ∀ step ∈ idle.filterMap Step.ofPiece?, step = .stay := by
    intro step hstep
    obtain ⟨piece, hpiece, hof⟩ := List.mem_filterMap.mp hstep
    by_contra hne
    have hcounts := isIdle_eq_false_iff.mpr ⟨step, hof, hne⟩
    simp [hidle piece hpiece] at hcounts
  have hnone : idle.filterMap Step.ofPiece? = [] := by
    by_contra hne
    have hlast := congrArg List.getLast? (hbare.symm.trans h)
    rw [← hpieces, List.filterMap_append, ← List.append_assoc, List.getLast?_append_of_ne_nil _ hne,
      List.getLast?_concat] at hlast
    cases hstay _ (List.mem_of_getLast? hlast)
  rw [trimmed, bare_assemble (hfit.of_prefix (trimIdle_begins _)), hbare]
  conv_rhs => rw [← hpieces]
  rw [List.filterMap_append, hnone, List.append_nil]

/-- Above a name that is joined to a path stands the path without what is idle at its end. -/
theorem ancestors_join (hp : p ≠ []) (hn : n.IsPlain) :
    (p.join n).ancestors = p.join n :: p.trimmed :: p.properAncestors := by
  obtain ⟨pieces, hparts, ⟨more, hmore⟩, hcs⟩ := exists_parts_join hp hn
  have hidle : ∀ piece ∈ more, isIdle piece = true := by
    rw [components, ← hmore, List.filterMap_append, ← List.append_assoc] at hcs
    intro piece hpiece
    simpa [isIdle] using List.filterMap_eq_nil_iff.mp (List.append_right_eq_self.mp hcs) piece hpiece
  have hcounts : isIdle n = false := by rw [isIdle, ofPiece?_of_plain hn]; rfl
  have htrim : trimIdle p.parts.2 = trimIdle pieces := by
    rw [← hmore, trimIdle, List.reverse_append,
      List.dropWhile_append_of_pos fun idle h => hidle idle (List.mem_reverse.mp h)]
    rfl
  have hshorter (idle others : List Text) (h : ∀ piece ∈ idle, isIdle piece = true) :
      shorter p.parts.1 (idle ++ others) = shorter p.parts.1 others := by
    induction idle with
    | nil => rfl
    | cons piece idle ih =>
      rw [List.cons_append, shorter, if_pos (h piece List.mem_cons_self)]
      exact ih fun q hq => h q (List.mem_cons_of_mem piece hq)
  rw [ancestors, properAncestors, hparts, List.reverse_append, List.reverse_singleton, List.singleton_append,
    shorter, if_neg (by simp [hcounts]), List.reverse_reverse, trimmed, htrim, properAncestors, ← hmore,
    List.reverse_append, hshorter _ _ fun piece h => hidle piece (List.mem_reverse.mp h)]

theorem components_trimmed (p : Path) : p.trimmed.components = p.components := by
  obtain ⟨hfit, -⟩ := parts_spec p
  rw [trimmed, components_assemble (hfit.of_prefix (trimIdle_begins _)), filterMap_trimIdle]
  · rfl
  · exact fun hlead first hfirst => first_not_idle p hlead first (head?_of_begins (trimIdle_begins _) hfirst)

theorem exists_parent?_join (hp : p ≠ []) (hn : n.IsPlain) :
    ∃ a, (p.join n).parent? = some a ∧ a.components = p.components := by
  refine ⟨p.trimmed, ?_, components_trimmed p⟩
  rw [parent?, (List.cons.inj (ancestors_join hp hn)).2]
  rfl

-- ---------------------------------------------------------------------------
-- Several names
-- ---------------------------------------------------------------------------

theorem components_foldl_join (hp : p ≠ []) (h : ∀ n ∈ rel, n.IsPlain) :
    (rel.foldl join p).components = p.components ++ rel.map .name := by
  induction rel generalizing p with
  | nil => simp
  | cons n rel ih =>
    have hn := h n List.mem_cons_self
    rw [List.foldl_cons, ih (join_ne_nil hn.1) fun m hm => h m (List.mem_cons_of_mem n hm), components_join hp hn]
    simp

theorem foldl_join_inj (h : ∀ n ∈ rel, n.IsPlain) (h' : ∀ n ∈ rel', n.IsPlain)
    (heq : rel.foldl join p = rel'.foldl join p) : rel = rel' := by
  have hbare := congrArg bare heq
  rw [bare_foldl_join p h, bare_foldl_join p h'] at hbare
  exact List.map_injective_iff.mpr (fun _ _ hd => Step.down.inj hd) (List.append_cancel_left hbare)

end Path

end SafeFiles
