import Mathlib.Data.List.DropRight
import SafeFiles.Proofs.Disk.EntryLaws

/-!
# The ancestors of a path

An ancestor is a path cut off behind one of its names. Its steps begin the steps
of the path (`of_mem_properAncestors`), and wherever these are cut behind a name
or `..` that is not the last, an ancestor has just the steps in front of the cut
(`exists_ancestor`).
-/

namespace SafeFiles

namespace Path

variable {p a : Path} {lead : Lead} {pieces before after : List Text} {piece : Text} {step : Step}

-- ---------------------------------------------------------------------------
-- The lead and the pieces
-- ---------------------------------------------------------------------------

def Lead.steps : Lead → List Step
  | .here => [.stay]
  | _ => []

/-- The pieces behind a lead hold no slash, and without a lead the first of them is not empty. -/
structure Fit (lead : Lead) (pieces : List Text) : Prop where
  slash : ∀ piece ∈ pieces, '/' ∉ piece
  first : lead = .none → ∀ piece ∈ pieces.head?, piece ≠ []

theorem head?_of_begins (h : before <+: pieces) (hpiece : piece ∈ before.head?) : piece ∈ pieces.head? := by
  obtain ⟨rest, rfl⟩ := h
  rw [List.head?_append, Option.mem_def.mp hpiece]
  rfl

theorem Fit.of_prefix (h : Fit lead pieces) (hp : before <+: pieces) : Fit lead before :=
  ⟨fun piece hpiece => h.slash piece (hp.subset hpiece),
    fun hlead piece hpiece => h.first hlead piece (head?_of_begins hp hpiece)⟩

theorem parts_spec (p : Path) : Fit p.parts.1 p.parts.2 ∧ (p.isAbsolute = true ↔ p.parts.1 = .root) ∧
    p.bare = p.parts.1.steps ++ p.parts.2.filterMap Step.ofPiece? := by
  have hslash : ∀ piece ∈ Text.pieces '/' p, '/' ∉ piece := fun piece h => (Text.mem_pieces h).1
  cases p with
  | nil => exact ⟨⟨by simp [parts, Text.pieces], by simp [parts, Text.pieces]⟩, by decide, rfl⟩
  | cons c rest =>
    obtain ⟨first, others, hrest⟩ := List.exists_cons_of_ne_nil (Text.pieces_ne_nil '/' rest)
    by_cases hc : c = '/'
    · subst hc
      have hpieces : Text.pieces '/' ('/' :: rest) = [] :: first :: others := by simp [Text.pieces, hrest]
      rw [hpieces] at hslash
      have hparts : parts ('/' :: rest) = (.root, first :: others) := by simp [parts, hpieces]
      rw [hparts, bare, hpieces]
      refine ⟨⟨fun piece h => hslash piece (List.mem_cons_of_mem _ h), by simp⟩, by simp [isAbsolute], ?_⟩
      simp [Lead.steps, Step.ofPiece?]
    have hpieces : Text.pieces '/' (c :: rest) = (c :: first) :: others := by
      simp [Text.pieces, hc, hrest]
    rw [hpieces] at hslash
    by_cases hdot : c = '.' ∧ first = []
    · obtain ⟨rfl, rfl⟩ := hdot
      have hparts : parts ('.' :: rest) = (.here, others) := by simp [parts, hpieces]
      rw [hparts, bare, hpieces]
      exact ⟨⟨fun piece h => hslash piece (List.mem_cons_of_mem _ h), by simp⟩,
        by simp [isAbsolute], rfl⟩
    · have hparts : parts (c :: rest) = (.none, (c :: first) :: others) := by
        rw [parts, hpieces]
        split <;> simp_all
      rw [hparts, bare, hpieces]
      exact ⟨⟨hslash, by simp⟩, by simp [isAbsolute, hc], rfl⟩

theorem bare_joinWith (h : ∀ piece ∈ pieces, '/' ∉ piece) :
    bare (Text.joinWith '/' pieces) = pieces.filterMap Step.ofPiece? := by
  induction pieces with
  | nil => rfl
  | cons piece others ih =>
    have hpiece : bare piece = [piece].filterMap Step.ofPiece? := by
      rw [bare, Text.pieces_of_not_mem (h piece List.mem_cons_self)]
    cases others with
    | nil => exact hpiece
    | cons next others =>
      show bare (piece ++ '/' :: Text.joinWith '/' (next :: others)) = _
      rw [bare_append_slash, hpiece, ih fun q hq => h q (List.mem_cons_of_mem _ hq), ← List.filterMap_append]
      rfl

theorem bare_append_pieces (t : Path) (h : ∀ piece ∈ pieces, '/' ∉ piece) :
    bare (t ++ pieces.flatMap ('/' :: ·)) = t.bare ++ pieces.filterMap Step.ofPiece? := by
  induction pieces generalizing t with
  | nil => simp
  | cons piece others ih =>
    have hpiece : bare piece = [piece].filterMap Step.ofPiece? := by
      rw [bare, Text.pieces_of_not_mem (h piece List.mem_cons_self)]
    rw [List.flatMap_cons, ← List.append_assoc, ih _ fun q hq => h q (List.mem_cons_of_mem _ hq),
      bare_append_slash, hpiece, List.append_assoc, ← List.filterMap_append]
    rfl

theorem bare_assemble (h : Fit lead pieces) :
    (assemble lead pieces).bare = lead.steps ++ pieces.filterMap Step.ofPiece? := by
  cases lead with
  | root =>
    rw [assemble, ← List.nil_append ('/' :: _), bare_append_slash, bare_joinWith h.slash]
    rfl
  | here => exact bare_append_pieces ['.'] h.slash
  | none => exact bare_joinWith h.slash

theorem isAbsolute_assemble (h : Fit lead pieces) : (assemble lead pieces).isAbsolute = true ↔ lead = .root := by
  cases lead with
  | root => simp [assemble, isAbsolute]
  | here => simp [assemble, isAbsolute]
  | none =>
    cases pieces with
    | nil => simp [assemble, Text.joinWith, isAbsolute]
    | cons piece others =>
      obtain ⟨c, rest, rfl⟩ := List.exists_cons_of_ne_nil (h.first rfl piece rfl)
      have hc : c ≠ '/' := by
        rintro rfl
        exact h.slash _ List.mem_cons_self List.mem_cons_self
      cases others <;> simp [assemble, Text.joinWith, isAbsolute, hc]

-- ---------------------------------------------------------------------------
-- Ancestors
-- ---------------------------------------------------------------------------

theorem mem_shorter : a ∈ shorter lead pieces ↔
    (∃ after piece before, pieces = after ++ piece :: before ∧ isIdle piece = false ∧
      a = assemble lead (trimIdle before.reverse)) ∨ lead = .here ∧ a = [] := by
  induction pieces with
  | nil => cases lead <;> simp [shorter]
  | cons piece rest ih =>
    have hskip : (∃ after cut before, piece :: rest = after ++ cut :: before ∧ isIdle cut = false ∧
          a = assemble lead (trimIdle before.reverse)) ↔
        (isIdle piece = false ∧ a = assemble lead (trimIdle rest.reverse)) ∨
        ∃ after cut before, rest = after ++ cut :: before ∧ isIdle cut = false ∧
          a = assemble lead (trimIdle before.reverse) := by
      constructor
      · rintro ⟨_ | ⟨_, after⟩, cut, before, heq, hidle, ha⟩
        · obtain ⟨rfl, rfl⟩ := List.cons.inj heq
          exact .inl ⟨hidle, ha⟩
        · obtain ⟨rfl, rfl⟩ := List.cons.inj heq
          exact .inr ⟨after, cut, before, rfl, hidle, ha⟩
      · rintro (⟨hidle, ha⟩ | ⟨after, cut, before, rfl, hidle, ha⟩)
        · exact ⟨[], piece, rest, rfl, hidle, ha⟩
        · exact ⟨piece :: after, cut, before, rfl, hidle, ha⟩
    rw [hskip, shorter]
    cases hidle : isIdle piece with
    | true => simp [ih]
    | false => simp [ih, or_assoc]

theorem mem_properAncestors : a ∈ p.properAncestors ↔
    (∃ before piece after, p.parts.2 = before ++ piece :: after ∧ isIdle piece = false ∧
      a = assemble p.parts.1 (trimIdle before)) ∨ p.parts.1 = .here ∧ a = [] := by
  rw [properAncestors, mem_shorter]
  refine or_congr_left ?_
  constructor
  · rintro ⟨after, piece, before, heq, hidle, ha⟩
    exact ⟨before.reverse, piece, after.reverse, by rw [← List.reverse_reverse p.parts.2, heq]; simp, hidle, ha⟩
  · rintro ⟨before, piece, after, heq, hidle, ha⟩
    exact ⟨after.reverse, piece, before.reverse, by rw [heq]; simp, hidle, by simpa using ha⟩

theorem trimIdle_begins (pieces : List Text) : trimIdle pieces <+: pieces :=
  List.rdropWhile_prefix isIdle pieces

theorem isIdle_eq_false_iff : isIdle piece = false ↔ ∃ step, Step.ofPiece? piece = some step ∧ step ≠ .stay := by
  unfold isIdle Component.ofPiece? Step.ofPiece?
  by_cases hempty : piece = []
  · simp [hempty]
  · by_cases hdot : piece = ['.']
    · simp [hdot]
    · by_cases hdots : piece = ['.', '.'] <;> simp [hempty, hdot, hdots]

theorem of_mem_properAncestors (h : a ∈ p.properAncestors) (hne : a ≠ []) :
    a.isAbsolute = p.isAbsolute ∧ ∃ post, p.bare = a.bare ++ post ∧ ∃ later ∈ post, later ≠ .stay := by
  obtain ⟨hfit, habs, hbare⟩ := parts_spec p
  rcases mem_properAncestors.mp h with ⟨before, piece, after, heq, hidle, rfl⟩ | ⟨-, rfl⟩
  · obtain ⟨idle, hbefore⟩ := trimIdle_begins before
    have hfit' : Fit p.parts.1 (trimIdle before) :=
      hfit.of_prefix ((trimIdle_begins before).trans (heq ▸ List.prefix_append before _))
    obtain ⟨step, hstep, hstay⟩ := isIdle_eq_false_iff.mp hidle
    refine ⟨?_, (idle ++ piece :: after).filterMap Step.ofPiece?, ?_, step, ?_, hstay⟩
    · rw [Bool.eq_iff_iff, isAbsolute_assemble hfit', habs]
    · rw [hbare, bare_assemble hfit', heq, List.append_assoc, ← List.filterMap_append, ← List.append_assoc,
        hbefore]
    · exact List.mem_filterMap.mpr ⟨piece, by simp, hstep⟩
  · exact absurd rfl hne

theorem of_mem_ancestors (h : a ∈ p.ancestors) (hne : a ≠ []) :
    a.isAbsolute = p.isAbsolute ∧ a.bare <+: p.bare := by
  rcases List.mem_cons.mp h with rfl | h
  · exact ⟨rfl, List.prefix_rfl⟩
  · obtain ⟨habs, post, hpost, -⟩ := of_mem_properAncestors h hne
    exact ⟨habs, post, hpost.symm⟩

theorem trimIdle_append (hpiece : isIdle piece = false) (hafter : ∀ idle ∈ after, isIdle idle = true) :
    trimIdle (before ++ piece :: after) = before ++ [piece] := by
  have hreverse : (before ++ piece :: after).reverse = after.reverse ++ (piece :: before.reverse) := by
    simp
  rw [trimIdle, hreverse, List.dropWhile_append_of_pos fun idle h => hafter idle (List.mem_reverse.mp h),
    List.dropWhile_cons_of_neg (by simp [hpiece])]
  simp

theorem exists_assemble_append (lead : Lead) (before : List Text) (piece : Text) :
    ∃ front, assemble lead (before ++ [piece]) = front ++ piece := by
  have hjoin : ∃ front, Text.joinWith '/' (before ++ [piece]) = front ++ piece := by
    by_cases h : before = []
    · exact ⟨[], by simp [h, Text.joinWith]⟩
    · exact ⟨Text.joinWith '/' before ++ ['/'], by simp [Text.joinWith_concat '/' h]⟩
  obtain ⟨front, hfront⟩ := hjoin
  cases lead with
  | root => exact ⟨'/' :: front, by rw [assemble, hfront]; rfl⟩
  | here => exact ⟨'.' :: before.flatMap ('/' :: ·) ++ ['/'], by simp [assemble]⟩
  | none => exact ⟨front, hfront⟩

/-- For every cut behind a name or `..` that is not the last there is an ancestor. -/
theorem exists_ancestor {pre post : List Step} (h : p.bare = pre ++ step :: post) (hstep : step ≠ .stay)
    (hpost : ∃ later ∈ post, later ≠ .stay) : ∃ a ∈ p.properAncestors, a ≠ [] ∧
      a.isAbsolute = p.isAbsolute ∧ a.bare = pre ++ [step] ∧ a.steps = a.bare := by
  obtain ⟨hfit, habs, hbare⟩ := parts_spec p
  obtain ⟨pre', rfl, hparts⟩ : ∃ pre', pre = p.parts.1.steps ++ pre' ∧
      p.parts.2.filterMap Step.ofPiece? = pre' ++ step :: post := by
    rw [hbare] at h
    rcases List.append_eq_append_iff.mp h with ⟨front, hpre, hrest⟩ | ⟨back, hlead, hrest⟩
    · exact ⟨front, hpre, hrest⟩
    · cases back with
      | nil => exact ⟨[], by simpa using hlead.symm, by simpa using hrest.symm⟩
      | cons first back =>
        obtain rfl : step = first := (List.cons.inj hrest).1
        cases hl : p.parts.1 <;> rw [hl] at hlead
        · simp [Lead.steps] at hlead
        · have hmem : step ∈ Lead.here.steps := by simp [hlead]
          exact absurd (List.mem_singleton.mp hmem) hstep
        · simp [Lead.steps] at hlead
  obtain ⟨front, rest, hsplit, rfl, hrest⟩ := List.filterMap_eq_append_iff.mp hparts
  obtain ⟨skipped, piece, rest, rfl, hskipped, hpiece, rfl⟩ := List.filterMap_eq_cons_iff.mp hrest
  obtain ⟨later, hlater, hne⟩ := hpost
  obtain ⟨counts, hcounts, hof⟩ := List.mem_filterMap.mp hlater
  have hidle : isIdle piece = false := isIdle_eq_false_iff.mpr ⟨step, hpiece, hstep⟩
  -- Cut off at the next piece that counts; the idle ones in front of it go as well.
  obtain ⟨cut, hfind⟩ : ∃ cut, rest.find? (fun q => !isIdle q) = some cut := by
    refine Option.isSome_iff_exists.mp (List.find?_isSome.mpr ⟨counts, hcounts, ?_⟩)
    simp [isIdle_eq_false_iff.mpr ⟨later, hof, hne⟩]
  obtain ⟨hcut, mid, after, rfl, hmid⟩ := List.find?_eq_some_iff_append.mp hfind
  have htrim : trimIdle (front ++ (skipped ++ piece :: mid)) = front ++ skipped ++ [piece] := by
    rw [← List.append_assoc]
    exact trimIdle_append hidle fun q hq => by simpa using hmid q hq
  have hfit' : Fit p.parts.1 (front ++ skipped ++ [piece]) := by
    refine hfit.of_prefix ⟨mid ++ cut :: after, ?_⟩
    rw [hsplit]
    simp
  obtain ⟨text, htext⟩ := exists_assemble_append p.parts.1 (front ++ skipped) piece
  have hne : piece ≠ [] := by rintro rfl; cases hpiece
  refine ⟨assemble p.parts.1 (front ++ skipped ++ [piece]), mem_properAncestors.mpr (.inl ?_), ?_, ?_, ?_, ?_⟩
  · exact ⟨front ++ (skipped ++ piece :: mid), cut, after, by rw [hsplit]; simp, by simpa using hcut,
      by rw [htrim]⟩
  · rw [htext]
    simp [hne]
  · rw [Bool.eq_iff_iff, isAbsolute_assemble hfit', habs]
  · rw [bare_assemble hfit', List.append_assoc, List.filterMap_append, List.filterMap_append,
      List.filterMap_eq_nil_iff.mpr hskipped]
    simp [hpiece]
  · refine steps_of_not_endsInSlash ?_
    rw [htext, endsInSlash_append _ hne]
    exact endsInSlash_of_not_mem (hfit'.slash piece (by simp))

end Path

end SafeFiles
