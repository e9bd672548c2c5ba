import SafeFiles.Proofs.MarkupLaws

/-!
# Written markup

What a writer puts down and what is read of it. A text whose special characters are
escaped is read as it was, but for the ends of its lines (`joined_reads_escape`), and
what stands between two elements is read as white space (`Gap.reads_text`).
-/

namespace SafeFiles

namespace Markup

variable {names : List Text} {name tail rest t inside : Text} {said more : List Markup} {c : Char}

-- ---------------------------------------------------------------------------
-- Ends of lines
-- ---------------------------------------------------------------------------

def plainEnd (c : Char) : Char := if c = '\r' ∨ c = '\u0085' ∨ c = '\u2028' then '\n' else c

theorem plainEnds_cons (hc : c ≠ '\r') (t : Text) : plainEnds (c :: t) = plainEnd c :: plainEnds t := by
  rw [plainEnds.eq_4 c t (fun _ h => absurd h hc) (fun _ h => absurd h hc), plainEnd]

def isControl (c : Char) : Bool := c.toNat < 0x20 || 0x7F ≤ c.toNat && c.toNat ≤ 0x9F

/-- Every line separator becomes a line feed. -/
def plainSeparators (t : Text) : Text := t.map fun c => if c = '\u2028' then '\n' else c

theorem map_plainEnd (h : t.any isControl = false) : t.map plainEnd = plainSeparators t := by
  rw [List.any_eq_false] at h
  refine List.map_congr_left fun c hc => ?_
  have hreturn : c ≠ '\r' := by rintro rfl; exact absurd (h _ hc) (by decide)
  have hnext : c ≠ '\u0085' := by rintro rfl; exact absurd (h _ hc) (by decide)
  simp [plainEnd, hreturn, hnext]

def isLoose (c : Char) : Bool := isSpace c || c = '\u0085' || c = '\u2028'

theorem isSpace_plainEnds (h : t.all isLoose = true) : (plainEnds t).all isSpace = true := by
  fun_induction plainEnds t with
  | case1 => rfl
  | case2 rest ih => simp_all [isSpace, isLoose]
  | case3 rest ih => simp_all [isSpace, isLoose]
  | case4 c rest _ _ ih =>
    rw [List.all_cons, Bool.and_eq_true] at h ⊢
    refine ⟨?_, ih h.2⟩
    have hc := h.1
    split
    · rfl
    · rename_i hend
      simpa [isLoose, not_or.mp hend, not_or.mp (not_or.mp hend).2] using hc

-- ---------------------------------------------------------------------------
-- Escaped text
-- ---------------------------------------------------------------------------

def escapeChar (c : Char) : Text :=
  if c = '&' then "&amp;".toList else if c = '<' then "&lt;".toList else if c = '>' then "&gt;".toList else [c]

def escape (t : Text) : Text := t.flatMap escapeChar

theorem escape_cons (c : Char) (t : Text) : escape (c :: t) = escapeChar c ++ escape t := rfl

theorem joined_opened (name attributes : Text) (said : List Markup) :
    joined (.opened name attributes :: said) = .opened name attributes :: joined said := rfl

theorem joined_text_congr (h : joined said = joined more) (t : Text) :
    joined (.text t :: said) = joined (.text t :: more) := by
  rw [joined, joined, h]

theorem joined_text_append (t u : Text) (said : List Markup) :
    joined (.text (t ++ u) :: said) = joined (.text t :: .text u :: said) := by
  rw [joined, joined, joined]
  cases joined said with
  | nil => rfl
  | cons piece more => cases piece <;> simp

theorem joined_reads_cons (hc : endsText c = false) (hreturn : c ≠ '\r') (t : Text) :
    joined (reads names (c :: t)) = joined (.text [plainEnd c] :: reads names t) := by
  have hcut : Text.cutAt endsText (c :: t) = (c :: (Text.cutAt endsText t).1, (Text.cutAt endsText t).2) := by
    simp [Text.cutAt, hc]
  rw [reads_cut hc, hcut]
  cases t with
  | nil => rw [plainEnds_cons hreturn]; rfl
  | cons d t =>
    by_cases hd : endsText d = true
    · simp [Text.cutAt, hd, plainEnds_cons hreturn, plainEnds]
    · rw [reads_cut (Bool.eq_false_iff.mpr hd), plainEnds_cons hreturn, ← joined_text_append]
      rfl

theorem reads_reference (h : name.any endsReference = false) (t : Text) :
    reads names ('&' :: (name ++ ';' :: t)) = .reference name :: reads names t := by
  have hcut : Text.cutAt endsReference (name ++ ';' :: t) = (name, ';' :: t) :=
    Text.cutAt_of_stop (by simpa using h) (by simp [endsReference])
  have hstep : step? names ('&' :: (name ++ ';' :: t)) = some ([.reference name], names, t) := by
    simp only [step?, hcut]
  exact reads_of_step (by simp) hstep

theorem joined_reads_escapeChar (hc : c ≠ '\r') (t : Text) :
    joined (reads names (escapeChar c ++ t)) = joined (.text [plainEnd c] :: reads names t) := by
  have hentity (name : Text) (hname : name.any endsReference = false) (hmeans : resolve? name = some c)
      (hplain : plainEnd c = c) : joined (reads names ('&' :: (name ++ ';' :: t))) =
        joined (.text [plainEnd c] :: reads names t) := by
    rw [reads_reference hname, joined_reference hmeans, hplain]
  unfold escapeChar
  split
  · rename_i h
    subst h
    exact hentity "amp".toList (by decide) rfl rfl
  split
  · rename_i h
    subst h
    exact hentity "lt".toList (by decide) rfl rfl
  split
  · rename_i h
    subst h
    exact hentity "gt".toList (by decide) rfl rfl
  · rename_i hamp hlt _
    exact joined_reads_cons (by simp [endsText, hamp, hlt]) hc t

/-- An escaped text is read as the text, in one piece with what follows. -/
theorem joined_reads_escape {v : Text} (hne : v ≠ []) (hreturn : '\r' ∉ v) (t : Text) :
    joined (reads names (escape v ++ t)) = joined (.text (v.map plainEnd) :: reads names t) := by
  induction v with
  | nil => exact absurd rfl hne
  | cons c v ih =>
    rw [List.mem_cons, not_or] at hreturn
    rw [escape_cons, List.append_assoc, joined_reads_escapeChar (Ne.symm hreturn.1)]
    cases v with
    | nil => rfl
    | cons d v =>
      rw [joined_text_congr (ih (List.cons_ne_nil d v) hreturn.2), ← joined_text_append]
      rfl

-- ---------------------------------------------------------------------------
-- Start tags
-- ---------------------------------------------------------------------------

def IsElementName (name : Text) : Prop :=
  name ≠ [] ∧ (∀ c ∈ name.head?, c ∉ ['!', '?']) ∧ ∀ c ∈ name, c ∉ ['>', '/', '"', '\''] ∧ isSpace c = false

instance (name : Text) : Decidable (IsElementName name) :=
  @instDecidableAnd _ _ inferInstance (@instDecidableAnd _ _ (Option.decidableForallMem _) (List.decidableBAll _ name))

def endsName : Text → Bool
  | '/' :: '>' :: _ => true
  | c :: _ => c = '>' || isSpace c
  | [] => false

theorem startTag_name (h : IsElementName name) (htail : ∀ c ∈ tail.head?, tail = ['/'] ∨ isSpace c = true) :
    (startTag (name ++ tail)).1 = name := by
  have hplain : ∀ c ∈ name, isSpace c = false := fun c hc => (h.2.2 c hc).2
  have hcut {more : Text} (hmore : ∀ c ∈ more.head?, isSpace c = true) :
      (Text.cutAt isSpace (name ++ more)).1 = name := congrArg Prod.fst (Text.cutAt_of_stop hplain hmore)
  show (Text.cutAt isSpace (if (name ++ tail).getLast? = some '/' then _ else _)).1 = name
  split
  · rename_i hslash
    have hne : tail ≠ [] := by
      rintro rfl
      rw [List.append_nil] at hslash
      exact absurd (h.2.2 _ (List.mem_of_getLast? hslash)).1 (by decide)
    rw [List.dropLast_append_of_ne_nil hne]
    refine hcut fun c hc => ?_
    match tail with
    | [_] => cases hc
    | first :: second :: more => exact (htail c hc).resolve_left (by simp)
  · rename_i hslash
    refine hcut fun c hc => (htail c hc).resolve_left ?_
    rintro rfl
    simp at hslash

theorem head?_of_cutTag (hends : endsName t = true) (hcut : cutTag none t = some (tail, rest)) :
    ∀ c ∈ tail.head?, tail = ['/'] ∨ isSpace c = true := by
  intro c hc
  unfold endsName at hends
  split at hends
  · simp only [cutTag, isQuote] at hcut
    cases hcut
    exact .inl rfl
  · rename_i first more _
    by_cases hclose : first = '>'
    · rw [cutTag, if_pos hclose] at hcut
      cases hcut
      cases hc
    · have hfirst : first = c := by
        have hhead := congrArg List.head? (cutTag_sound hcut)
        simpa [Option.mem_def.mp hc] using hhead
      subst hfirst
      exact .inr (by simpa [hclose] using hends)
  · cases hends

theorem IsElementName.plain (h : IsElementName name) : ∀ c ∈ name, c ≠ '>' ∧ isQuote c = false := by
  intro c hc
  have hmem := (h.2.2 c hc).1
  simp only [List.mem_cons, not_or] at hmem
  simp [isQuote, hmem]

/-- A start tag is broken or read with the name that it has. -/
theorem reads_tag (h : IsElementName name) (hends : endsName t = true) (names : List Text) :
    reads names ('<' :: (name ++ t)) = [.broken] ∨
      ∃ attributes said, reads names ('<' :: (name ++ t)) = .opened name attributes :: said := by
  have hfirst : ∀ c ∈ (name ++ t).head?, c ∉ ['!', '?', '/'] := by
    obtain ⟨c, more, rfl⟩ := List.exists_cons_of_ne_nil h.1
    have hstart := h.2.1 c rfl
    have hslash := (h.2.2 c List.mem_cons_self).1
    simp only [List.mem_cons, not_or] at hstart hslash
    simp [hstart, hslash]
  have hstep : step? names ('<' :: (name ++ t)) = _ := step?_tag hfirst
  rw [cutTag_append h.plain] at hstep
  cases hcut : cutTag none t with
  | none => exact .inl (reads_of_no_step (by simp) (by simp [hstep, hcut]))
  | some cut =>
    obtain ⟨tail, rest⟩ := cut
    have hname := startTag_name h (head?_of_cutTag hends hcut)
    simp only [hcut, Option.map_some] at hstep
    generalize startTag (name ++ tail) = start at hname hstep
    obtain ⟨_, attributes, closes⟩ := start
    subst hname
    refine .inr ?_
    cases closes with
    | false => exact ⟨attributes, _, reads_of_step (by simp) hstep⟩
    | true => exact ⟨attributes, _, reads_of_step (by simp) hstep⟩

-- ---------------------------------------------------------------------------
-- Between two elements
-- ---------------------------------------------------------------------------

inductive Gap where
  | space (t : Text) (loose : t.all isLoose = true)
  | comment (t : Text) (loose : t.all isLoose = true) (inside : Text) (ends : ¬ "-->".toList <:+: inside) (rest : Gap)

def Gap.text : Gap → Text
  | .space t _ => t
  | .comment t _ inside _ rest => t ++ ("<!--".toList ++ (inside ++ ("-->".toList ++ rest.text)))

theorem cutMark_comment (h : ¬ "-->".toList <:+: inside) (t : Text) :
    cutMark "-->".toList (inside ++ ("-->".toList ++ t)) = some (inside, t) := by
  induction inside with
  | nil => rfl
  | cons c inside ih =>
    have hmark : "-->".toList.isPrefixOf (c :: (inside ++ ("-->".toList ++ t))) = false := by
      -- The mark would have to end inside, because its last character occurs in it only once.
      rw [Bool.eq_false_iff, ne_eq, List.isPrefixOf_iff_prefix]
      rcases inside with _ | ⟨d, _ | ⟨e, inside⟩⟩
      · simp
      · simp
      · intro hmark
        refine h (List.IsPrefix.isInfix (List.prefix_of_prefix_length_le hmark ?_ (by simp)))
        exact ⟨"-->".toList ++ t, rfl⟩
    rw [List.cons_append, cutMark, hmark, ih fun hinfix => h (List.infix_cons hinfix)]
    rfl

theorem reads_loose (names : List Text) (hloose : t.all isLoose = true) {u : Text}
    (hu : ∀ c ∈ u.head?, endsText c = true) : ∃ blanks : List Text, (∀ b ∈ blanks, b.all isSpace = true) ∧
      reads names (t ++ u) = blanks.map .text ++ reads names u := by
  by_cases hne : t = []
  · exact ⟨[], by simp, by rw [hne]; rfl⟩
  · have hplain : t.any endsText = false := by
      rw [List.any_eq_false]
      intro c hc hends
      have hspace := List.all_eq_true.mp hloose c hc
      simp only [endsText, Bool.or_eq_true, decide_eq_true_eq] at hends
      rcases hends with rfl | rfl <;> exact absurd hspace (by decide)
    exact ⟨[plainEnds t], by simpa using isSpace_plainEnds hloose, reads_text hne hplain hu⟩

theorem read_loose (hloose : t.all isLoose = true) (rest : Text) :
    read (t ++ '<' :: rest) = reads [] (t ++ '<' :: rest) := by
  have hmark : (t ++ '<' :: rest).head? ≠ some '\uFEFF' := by
    cases t with
    | nil => simp
    | cons c t =>
      intro hc
      rw [List.cons_append, List.head?_cons, Option.some.injEq] at hc
      rw [hc, List.all_cons, Bool.and_eq_true] at hloose
      exact absurd hloose.1 (by decide)
  rw [read, if_neg hmark]
  rfl

theorem Gap.read_text (g : Gap) (t : Text) : read (g.text ++ '<' :: t) = reads [] (g.text ++ '<' :: t) := by
  cases g with
  | space s loose => exact read_loose loose t
  | comment s loose inside ends rest =>
    rw [Gap.text, List.append_assoc]
    exact read_loose loose _

theorem Gap.reads_text (g : Gap) (names : List Text) (ht : ∀ c ∈ t.head?, endsText c = true) :
    ∃ blanks : List Text, (∀ b ∈ blanks, b.all isSpace = true) ∧
      reads names (g.text ++ t) = blanks.map .text ++ reads names t := by
  induction g with
  | space s loose => exact reads_loose names loose ht
  | comment s loose inside ends rest ih =>
    obtain ⟨later, hlater, hrest⟩ := ih
    obtain ⟨blanks, hblanks, hfirst⟩ := reads_loose names loose
      (u := "<!--".toList ++ (inside ++ ("-->".toList ++ (rest.text ++ t)))) (by simp [endsText])
    refine ⟨blanks ++ later, fun b hb => (List.mem_append.mp hb).elim (hblanks b) (hlater b), ?_⟩
    rw [Gap.text]
    simp only [List.append_assoc]
    rw [hfirst, reads_comment (cutMark_comment ends _), hrest, List.map_append, List.append_assoc]

end Markup

end SafeFiles
