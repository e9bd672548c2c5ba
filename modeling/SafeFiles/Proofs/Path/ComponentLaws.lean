import SafeFiles.Canonical
import SafeFiles.Proofs.Path.AncestorLaws

/-!
# Components and steps

The components of a path are its steps without those that lead nowhere: a dot and
the root take none. The laws here say what making a path absolute, putting one
together from components and going to its parent do to the steps.
-/

namespace SafeFiles

namespace Component

def step? : Component → Option Step
  | .root | .here => none
  | .up => some .up
  | .name n => some (.down n)

def IsInner : Component → Prop
  | .root | .here => False
  | .up => True
  | .name n => n ≠ [] ∧ n ≠ ['.'] ∧ n ≠ ['.', '.'] ∧ '/' ∉ n

variable {c : Component} {piece : Text}

theorem isInner_of_ofPiece? (h : ofPiece? piece = some c) (hslash : '/' ∉ piece) : c.IsInner := by
  unfold ofPiece? at h
  split at h
  · cases h
  rename_i hidle
  split at h
  · cases h
    trivial
  · rename_i hdots
    cases h
    exact ⟨fun hempty => hidle (.inl hempty), fun hdot => hidle (.inr hdot), hdots, hslash⟩

theorem bare_text (h : c.IsInner) : Path.bare c.text = c.step?.toList := by
  cases c with
  | root => cases h
  | here => cases h
  | up => rfl
  | name n =>
    obtain ⟨hempty, hdot, hdots, hslash⟩ := h
    rw [text, Path.bare, Text.pieces_of_not_mem hslash]
    simp [Step.ofPiece?, hempty, hdot, hdots, step?]

theorem text_ends (h : c.IsInner) :
    c.text ≠ [] ∧ Path.isAbsolute c.text = false ∧ Path.endsInSlash c.text = false := by
  cases c with
  | root => cases h
  | here => cases h
  | up => decide
  | name n =>
    obtain ⟨hempty, -, -, hslash⟩ := h
    refine ⟨hempty, ?_, Path.endsInSlash_of_not_mem hslash⟩
    rw [text, Path.isAbsolute, decide_eq_false_iff_not]
    exact fun hhead => hslash (List.mem_of_mem_head? hhead)

theorem step?_inj {c' : Component} (h : c.IsInner) (h' : c'.IsInner) (hstep : c.step? = c'.step?) : c = c' := by
  cases c with
  | root => cases h
  | here => cases h
  | up =>
    cases c' with
    | up => rfl
    | root | here | name _ => cases hstep
  | name n =>
    cases c' with
    | name m =>
      cases hstep
      rfl
    | root | here | up => cases hstep

theorem step?_isSome (h : c.IsInner) : ∃ step, c.step? = some step ∧ step ≠ .stay := by
  cases c with
  | root => cases h
  | here => cases h
  | up => exact ⟨.up, rfl, by simp⟩
  | name n => exact ⟨.down n, rfl, by simp⟩

end Component

namespace Path

variable {p a base : Path} {cs : List Component} {lead : Lead} {pieces : List Text}

def moves (p : Path) : List Step := p.components.filterMap Component.step?

-- ---------------------------------------------------------------------------
-- Pieces
-- ---------------------------------------------------------------------------

theorem filter_ofPiece? (pieces : List Text) :
    (pieces.filterMap Step.ofPiece?).filter (· ≠ .stay) =
      (pieces.filterMap Component.ofPiece?).filterMap Component.step? := by
  induction pieces with
  | nil => rfl
  | cons piece rest ih =>
    by_cases hempty : piece = []
    · simpa [Step.ofPiece?, Component.ofPiece?, hempty] using ih
    by_cases hdot : piece = ['.']
    · simpa [Step.ofPiece?, Component.ofPiece?, hdot] using ih
    by_cases hdots : piece = ['.', '.']
    · simpa [Step.ofPiece?, Component.ofPiece?, Component.step?, hdots] using ih
    · simpa [Step.ofPiece?, Component.ofPiece?, Component.step?, hempty, hdot, hdots] using ih

theorem filter_lead (lead : Lead) : lead.steps.filter (· ≠ .stay) = [] := by
  cases lead <;> rfl

theorem moves_eq (p : Path) :
    p.moves = (p.parts.2.filterMap Component.ofPiece?).filterMap Component.step? := by
  rw [moves, components, List.filterMap_append]
  cases p.parts.1 <;> rfl

theorem filter_bare (p : Path) : p.bare.filter (· ≠ .stay) = p.moves := by
  obtain ⟨-, -, hbare⟩ := parts_spec p
  rw [hbare, List.filter_append, filter_lead, filter_ofPiece?, moves_eq, List.nil_append]

theorem filter_moves (p : Path) : p.moves.filter (· ≠ .stay) = p.moves := by
  rw [← filter_bare, List.filter_filter]
  simp

theorem moves_assemble (h : Fit lead pieces) :
    (assemble lead pieces).moves = (pieces.filterMap Component.ofPiece?).filterMap Component.step? := by
  rw [← filter_bare, bare_assemble h, List.filter_append, filter_lead, filter_ofPiece?, List.nil_append]

/-- Behind the lead stand inner components only. -/
theorem components_spec (p : Path) : ∃ inner, (∀ c ∈ inner, c.IsInner) ∧
    p.components = p.parts.1.components ++ inner ∧ p.moves = inner.filterMap Component.step? := by
  refine ⟨_, fun c hc => ?_, rfl, moves_eq p⟩
  obtain ⟨piece, hpiece, hof⟩ := List.mem_filterMap.mp hc
  exact Component.isInner_of_ofPiece? hof ((parts_spec p).1.slash piece hpiece)

theorem components_of_isAbsolute (h : p.isAbsolute = true) : ∃ inner, (∀ c ∈ inner, c.IsInner) ∧
    p.components = .root :: inner ∧ p.moves = inner.filterMap Component.step? := by
  obtain ⟨inner, hinner, hcs, hmoves⟩ := components_spec p
  rw [(parts_spec p).2.1.mp h] at hcs
  exact ⟨inner, hinner, hcs, hmoves⟩

theorem inner_ext {cs' : List Component} (hcs : ∀ c ∈ cs, c.IsInner) (hcs' : ∀ c ∈ cs', c.IsInner)
    (h : cs.filterMap Component.step? = cs'.filterMap Component.step?) : cs = cs' := by
  induction cs generalizing cs' with
  | nil =>
    cases cs' with
    | nil => rfl
    | cons c rest =>
      obtain ⟨step, hstep, -⟩ := Component.step?_isSome (hcs' c List.mem_cons_self)
      simp [hstep] at h
  | cons c rest ih =>
    have hc := hcs c List.mem_cons_self
    obtain ⟨step, hstep, -⟩ := Component.step?_isSome hc
    cases cs' with
    | nil => simp [hstep] at h
    | cons c' rest' =>
      have hc' := hcs' c' List.mem_cons_self
      obtain ⟨step', hstep', -⟩ := Component.step?_isSome hc'
      simp only [List.filterMap_cons, hstep, hstep', List.cons.injEq] at h
      obtain ⟨rfl, hrest⟩ := h
      rw [Component.step?_inj hc hc' (hstep.trans hstep'.symm), ih (fun x hx => hcs x (List.mem_cons_of_mem _ hx))
        (fun x hx => hcs' x (List.mem_cons_of_mem _ hx)) hrest]

theorem components_ext (hp : p.isAbsolute = true) (ha : a.isAbsolute = true) (h : p.moves = a.moves) :
    p.components = a.components := by
  obtain ⟨inner, hinner, hcs, hmoves⟩ := components_of_isAbsolute hp
  obtain ⟨inner', hinner', hcs', hmoves'⟩ := components_of_isAbsolute ha
  rw [hcs, hcs', inner_ext hinner hinner' (by rw [← hmoves, ← hmoves', h])]

-- ---------------------------------------------------------------------------
-- Components joined to a path
-- ---------------------------------------------------------------------------

theorem bare_foldl_text (base : Path) (h : ∀ c ∈ cs, c.IsInner) :
    (cs.foldl (fun base c => base.join c.text) base).bare =
      base.bare ++ cs.filterMap Component.step? := by
  induction cs generalizing base with
  | nil => simp
  | cons c rest ih =>
    have hc := h c List.mem_cons_self
    obtain ⟨-, hrel, -⟩ := Component.text_ends hc
    obtain ⟨step, hstep, -⟩ := Component.step?_isSome hc
    rw [List.foldl_cons, ih _ fun x hx => h x (List.mem_cons_of_mem _ hx), bare_join _ hrel,
      Component.bare_text hc]
    simp [hstep]

theorem isAbsolute_foldl_text (base : Path) (h : ∀ c ∈ cs, c.IsInner) :
    (cs.foldl (fun base c => base.join c.text) base).isAbsolute = base.isAbsolute := by
  induction cs generalizing base with
  | nil => rfl
  | cons c rest ih =>
    rw [List.foldl_cons, ih _ fun x hx => h x (List.mem_cons_of_mem _ hx),
      isAbsolute_join _ (Component.text_ends (h c List.mem_cons_self)).2.1]

theorem endsInSlash_foldl_text (base : Path) (h : ∀ c ∈ cs, c.IsInner) (hne : cs ≠ []) :
    (cs.foldl (fun base c => base.join c.text) base).endsInSlash = false := by
  obtain ⟨front, c, rfl⟩ := (List.eq_nil_or_concat cs).resolve_left hne
  rw [List.concat_eq_append] at h ⊢
  obtain ⟨hempty, hrel, hend⟩ := Component.text_ends (h c (by simp))
  obtain ⟨between, hjoin⟩ := exists_join_eq (front.foldl (fun base c => base.join c.text) base)
  rw [List.foldl_append, List.foldl_cons, List.foldl_nil, hjoin _ hrel, endsInSlash_append _ hempty, hend]

theorem ofComponents_spec (h : ∀ c ∈ cs, c.IsInner) : (ofComponents (.root :: cs)).isAbsolute = true ∧
    (ofComponents (.root :: cs)).steps = cs.filterMap Component.step? := by
  have hroot : join [] Component.root.text = ['/'] := rfl
  simp only [ofComponents, List.foldl_cons, hroot]
  refine ⟨isAbsolute_foldl_text _ h, ?_⟩
  by_cases hnil : cs = []
  · subst hnil
    rfl
  · rw [steps_of_not_endsInSlash (endsInSlash_foldl_text _ h hnil), bare_foldl_text _ h]
    rfl

theorem bare_join_nil (p : Path) : (p.join []).bare = p.bare := by
  rw [bare_join p rfl]
  exact List.append_nil _

theorem absoluteFrom_spec (p : Path) {cwd : Path} (hcwd : cwd.isAbsolute = true) :
    (p.absoluteFrom cwd).isAbsolute = true ∧
      (p.absoluteFrom cwd).bare = (if p.isAbsolute then [] else cwd.bare) ++ p.moves := by
  obtain ⟨inner, hinner, hcs, hmoves⟩ := components_spec p
  have hlead := (parts_spec p).2.1
  -- A trailing slash makes no difference to either; what counts is the text in front of it.
  suffices hbody : ∃ start, start.isAbsolute = true ∧ start.bare = (if p.isAbsolute then [] else cwd.bare) ∧
      (p.absoluteFrom cwd = inner.foldl (fun base c => base.join c.text) start ∨
        p.absoluteFrom cwd = (inner.foldl (fun base c => base.join c.text) start).join []) by
    obtain ⟨start, habs, hbare, h | h⟩ := hbody
    · rw [h, isAbsolute_foldl_text _ hinner, bare_foldl_text _ hinner, hbare, hmoves]
      exact ⟨habs, rfl⟩
    · rw [h, isAbsolute_join _ rfl, isAbsolute_foldl_text _ hinner, bare_join_nil,
        bare_foldl_text _ hinner, hbare, hmoves]
      exact ⟨habs, rfl⟩
  have hends (body : Path) : (if p.endsInSlash then body.join [] else body) = body ∨
      (if p.endsInSlash then body.join [] else body) = body.join [] := by
    split
    · exact .inr rfl
    · exact .inl rfl
  unfold absoluteFrom
  cases hp : p.parts.1 with
  | root =>
    rw [hp] at hcs
    have habs : p.isAbsolute = true := hlead.mpr hp
    cases hdoubled : p.isDoubled with
    | true =>
      refine ⟨['/', '/'], rfl, by simp [habs]; rfl, ?_⟩
      simpa [habs, hcs, Lead.components] using hends _
    | false =>
      refine ⟨['/'], rfl, by simp [habs]; rfl, ?_⟩
      have hroot : join [] Component.root.text = ['/'] := rfl
      simpa [habs, hcs, Lead.components, hroot] using hends _
  | here =>
    rw [hp] at hcs
    have habs : p.isAbsolute = false := by simpa [hp] using hlead
    refine ⟨cwd, hcwd, by simp [habs], ?_⟩
    simpa [habs, hcs, Lead.components] using hends _
  | none =>
    rw [hp] at hcs
    have habs : p.isAbsolute = false := by simpa [hp] using hlead
    refine ⟨cwd, hcwd, by simp [habs], ?_⟩
    simp only [habs, Bool.false_eq_true, if_false]
    rw [hcs]
    cases inner with
    | nil => exact hends _
    | cons c rest =>
      have hc := hinner c List.mem_cons_self
      cases c with
      | root | here => cases hc
      | up | name _ => exact hends _

theorem components_absoluteFrom {cwd : Path} (hp : p.isAbsolute = true) (hcwd : cwd.isAbsolute = true) :
    (p.absoluteFrom cwd).components = p.components := by
  obtain ⟨habs, hbare⟩ := absoluteFrom_spec p hcwd
  refine components_ext habs hp ?_
  rw [← filter_bare, hbare, if_pos hp, List.nil_append, filter_moves]

theorem components_join_of_isAbsolute {rel : Path} (hp : p.isAbsolute = true) (hrel : rel.isAbsolute = false) :
    ∃ inner, (p.join rel).components = p.components ++ inner := by
  obtain ⟨mine, hmine, hcs, hmoves⟩ := components_of_isAbsolute hp
  obtain ⟨inner, hinner, -, hmoves'⟩ := components_spec rel
  obtain ⟨whole, hwhole, hcs', hmoves''⟩ := components_of_isAbsolute ((isAbsolute_join p hrel).trans hp)
  have hjoin : (p.join rel).moves = p.moves ++ rel.moves := by
    rw [← filter_bare, ← filter_bare, ← filter_bare, bare_join p hrel, List.filter_append]
  refine ⟨inner, ?_⟩
  rw [hcs', hcs, List.cons_append, inner_ext hwhole (List.forall_mem_append.mpr ⟨hmine, hinner⟩)]
  rw [← hmoves'', hjoin, hmoves, hmoves', List.filterMap_append]

-- ---------------------------------------------------------------------------
-- The parent
-- ---------------------------------------------------------------------------

theorem exists_of_head?_shorter (h : (shorter lead pieces).head? = some a) :
    (∃ after piece before, pieces = after ++ piece :: before ∧ (∀ q ∈ after, isIdle q = true) ∧
      isIdle piece = false ∧ a = assemble lead (trimIdle before.reverse)) ∨
    a = [] ∧ ∀ q ∈ pieces, isIdle q = true := by
  induction pieces with
  | nil =>
    rw [shorter] at h
    split at h
    · cases h
      exact .inr ⟨rfl, by simp⟩
    · cases h
  | cons piece rest ih =>
    rw [shorter] at h
    split at h
    · rename_i hidle
      rcases ih h with ⟨after, piece', before, rfl, hafter, hpiece, ha⟩ | ⟨ha, hrest⟩
      · exact .inl ⟨piece :: after, piece', before, rfl, List.forall_mem_cons.mpr ⟨hidle, hafter⟩, hpiece, ha⟩
      · exact .inr ⟨ha, List.forall_mem_cons.mpr ⟨hidle, hrest⟩⟩
    · rename_i hidle
      cases h
      exact .inl ⟨[], piece, rest, rfl, by simp, by simpa using hidle, rfl⟩

theorem filterMap_ofPiece?_idle (h : ∀ q ∈ pieces, isIdle q = true) :
    pieces.filterMap Component.ofPiece? = [] := by
  refine List.filterMap_eq_nil_iff.mpr fun q hq => ?_
  simpa [isIdle] using h q hq

theorem exists_idle (pieces : List Text) : ∃ idle, trimIdle pieces ++ idle = pieces ∧ ∀ q ∈ idle, isIdle q = true := by
  obtain ⟨idle, hpieces⟩ := trimIdle_begins pieces
  refine ⟨idle, hpieces, fun q hq => ?_⟩
  have hdrop : idle.reverse = pieces.reverse.takeWhile isIdle := by
    have hsplit := List.takeWhile_append_dropWhile (p := isIdle) (l := pieces.reverse)
    have hreverse := congrArg List.reverse hpieces
    rw [List.reverse_append, trimIdle, List.reverse_reverse] at hreverse
    exact List.append_cancel_right (hreverse.trans hsplit.symm)
  exact List.mem_takeWhile_imp (hdrop ▸ List.mem_reverse.mpr hq)

theorem filterMap_trimIdle (pieces : List Text) :
    (trimIdle pieces).filterMap Component.ofPiece? = pieces.filterMap Component.ofPiece? := by
  obtain ⟨idle, hpieces, hidle⟩ := exists_idle pieces
  conv_rhs => rw [← hpieces]
  rw [List.filterMap_append, filterMap_ofPiece?_idle hidle, List.append_nil]

theorem moves_of_no_parent (h : p.parent? = none) : p.moves = [] := by
  have hidle : ∀ q ∈ p.parts.2, isIdle q = true := by
    intro q hq
    by_contra hcounts
    rw [Bool.not_eq_true] at hcounts
    obtain ⟨before, after, hsplit⟩ := List.append_of_mem hq
    have hmem : assemble p.parts.1 (trimIdle before) ∈ p.properAncestors :=
      mem_properAncestors.mpr (.inl ⟨before, q, after, hsplit, hcounts, rfl⟩)
    rw [List.head?_eq_none_iff.mp h] at hmem
    cases hmem
  rw [moves_eq, filterMap_ofPiece?_idle hidle]
  rfl

/-- The parent has all components of the path but the last; that of a lone dot has none. -/
theorem moves_of_parent? (h : p.parent? = some a) :
    (a.isAbsolute = p.isAbsolute ∧ ∃ c : Component, c.IsInner ∧ p.moves = a.moves ++ c.step?.toList) ∨
      a = [] ∧ p.moves = [] := by
  rcases exists_of_head?_shorter h with ⟨after, piece, before, hparts, hafter, hpiece, rfl⟩ | ⟨ha, hidle⟩
  · have hsplit : p.parts.2 = before.reverse ++ piece :: after.reverse := by
      rw [← List.reverse_reverse p.parts.2, hparts]
      simp
    obtain ⟨c, hc⟩ : ∃ c, Component.ofPiece? piece = some c :=
      Option.isSome_iff_exists.mp (by simpa [isIdle] using hpiece)
    obtain ⟨hfit, habs, -⟩ := parts_spec p
    have hfit' : Fit p.parts.1 (trimIdle before.reverse) :=
      hfit.of_prefix ((trimIdle_begins _).trans (hsplit ▸ List.prefix_append _ _))
    refine .inl ⟨by rw [Bool.eq_iff_iff, isAbsolute_assemble hfit', habs], c, ?_, ?_⟩
    · exact Component.isInner_of_ofPiece? hc (hfit.slash piece (by simp [hsplit]))
    · have hidle : after.reverse.filterMap Component.ofPiece? = [] :=
        filterMap_ofPiece?_idle fun q hq => hafter q (List.mem_reverse.mp hq)
      rw [moves_eq, hsplit, List.filterMap_append, List.filterMap_cons, hc, hidle,
        moves_assemble hfit', filterMap_trimIdle, List.filterMap_append]
      cases c <;> rfl
  · refine .inr ⟨ha, ?_⟩
    rw [moves_eq, filterMap_ofPiece?_idle fun q hq => hidle q (List.mem_reverse.mpr hq)]
    rfl

end Path

namespace Disk

variable {d : Disk} {p : Path} {here place : Place} {links : Nat}

theorem Route.moves_iff (hf : d.isFolderAt place) :
    d.Route .follow links here p.moves place ↔ d.Route .follow links here p.bare place := by
  rw [← Path.filter_bare]
  exact Route.filter_iff [] hf

end Disk

end SafeFiles
