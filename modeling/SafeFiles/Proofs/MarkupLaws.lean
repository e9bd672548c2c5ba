import Mathlib.Data.List.TakeWhile
import SafeFiles.Config.Document

/-!
# Reading markup

`step?` is one step of `scan`: what it says, the elements that are open behind it,
and the text that is left, which is always shorter. So a reading does not depend on
its fuel (`reads`), and it goes along the text piece by piece.
-/

namespace SafeFiles

namespace Markup

variable {names outer : List Text} {t u before after content rest mark name : Text} {fuel : Nat} {said : List Markup}
  {quote : Option Char} {inside : Bool}

theorem length_plainEnds_le (t : Text) : (plainEnds t).length ≤ t.length := by
  fun_induction plainEnds t <;> simp <;> omega

theorem plainEnds_eq_self_iff : plainEnds t = t ↔ ∀ c ∈ t, c ∉ ['\r', '\u0085', '\u2028'] := by
  fun_induction plainEnds t with
  | case1 => simp
  | case2 rest ih => simp
  | case3 rest ih => simp
  | case4 c rest _ _ ih =>
    have hhead : (if c = '\r' ∨ c = '\u0085' ∨ c = '\u2028' then '\n' else c) = c ↔
        c ∉ ['\r', '\u0085', '\u2028'] := by
      simp only [List.mem_cons, List.not_mem_nil, or_false]
      split
      · rename_i hc
        rcases hc with rfl | rfl | rfl <;> decide
      · simpa only [true_iff]
    rw [List.cons.injEq, hhead, ih, List.forall_mem_cons]

-- ---------------------------------------------------------------------------
-- Cutting
-- ---------------------------------------------------------------------------

theorem cutMark_sound (h : cutMark mark t = some (before, after)) : t = before ++ mark ++ after := by
  induction t generalizing before with
  | nil => cases h
  | cons c rest ih =>
    rw [cutMark] at h
    split at h
    · rename_i hmark
      obtain ⟨more, hmore⟩ := List.isPrefixOf_iff_prefix.mp hmark
      cases h
      rw [← hmore]
      simp
    · obtain ⟨⟨before', after'⟩, hcut, hpair⟩ := Option.map_eq_some_iff.mp h
      cases hpair
      rw [ih hcut]
      rfl

theorem length_cutMark (h : cutMark mark t = some (before, after)) :
    t.length = before.length + mark.length + after.length := by
  rw [cutMark_sound h, List.length_append, List.length_append]

theorem cutMark_shorter {k : Nat} (h : cutMark mark (t.drop k) = some (before, after)) (hne : mark ≠ []) :
    after.length < t.length := by
  have hlen := length_cutMark h
  have hpos := List.length_pos_iff.mpr hne
  rw [List.length_drop] at hlen
  omega

theorem cutMark_append (h : cutMark mark t = some (before, after)) (u : Text) :
    cutMark mark (t ++ u) = some (before, after ++ u) := by
  induction t generalizing before with
  | nil => cases h
  | cons c rest ih =>
    rw [cutMark] at h
    rw [List.cons_append, cutMark]
    split at h
    · rename_i hmark
      have hstart := List.isPrefixOf_iff_prefix.mp hmark
      cases h
      rw [← List.cons_append, if_pos (List.isPrefixOf_iff_prefix.mpr (hstart.trans (List.prefix_append _ u))),
        List.drop_append_of_le_length hstart.length_le]
    · rename_i hmark
      obtain ⟨⟨before', after'⟩, hcut, hpair⟩ := Option.map_eq_some_iff.mp h
      cases hpair
      have hlong := length_cutMark hcut
      rw [if_neg, ih hcut]
      · rfl
      · intro hwhole
        refine hmark (List.isPrefixOf_iff_prefix.mpr ?_)
        exact List.prefix_of_prefix_length_le (List.isPrefixOf_iff_prefix.mp hwhole)
          (List.prefix_append (c :: rest) u) (by simp; omega)

theorem cutTag_sound (h : cutTag quote t = some (content, rest)) : t = content ++ '>' :: rest := by
  induction t generalizing quote content with
  | nil => cases quote <;> cases h
  | cons c t ih =>
    cases quote with
    | none =>
      rw [cutTag] at h
      split at h
      · rename_i hend
        cases h
        rw [hend]
        rfl
      · obtain ⟨⟨inner, after⟩, hcut, hpair⟩ := Option.map_eq_some_iff.mp h
        cases hpair
        rw [ih hcut]
        rfl
    | some q =>
      rw [cutTag] at h
      obtain ⟨⟨inner, after⟩, hcut, hpair⟩ := Option.map_eq_some_iff.mp h
      cases hpair
      rw [ih hcut]
      rfl

theorem length_cutTag (h : cutTag quote t = some (content, rest)) : t.length = content.length + 1 + rest.length := by
  rw [cutTag_sound h, List.length_append, List.length_cons]
  omega

theorem cutTag_append (h : ∀ c ∈ content, c ≠ '>' ∧ isQuote c = false) (t : Text) :
    cutTag none (content ++ t) = (cutTag none t).map fun (before, after) => (content ++ before, after) := by
  induction content with
  | nil => simp
  | cons c content ih =>
    obtain ⟨hend, hquote⟩ := h c List.mem_cons_self
    rw [List.cons_append, cutTag, if_neg hend, hquote, if_neg Bool.false_ne_true,
      ih fun x hx => h x (List.mem_cons_of_mem c hx), Option.map_map]
    rfl

theorem cutTag_of_plain (h : ∀ c ∈ content, c ≠ '>' ∧ isQuote c = false) (rest : Text) :
    cutTag none (content ++ '>' :: rest) = some (content, rest) := by
  simp [cutTag_append h, cutTag]

theorem cutType_sound (h : cutType inside t = some (content, rest)) : t = content ++ '>' :: rest := by
  induction t generalizing inside content with
  | nil => cases h
  | cons c t ih =>
    rw [cutType] at h
    split at h
    · rename_i hend
      cases h
      rw [hend.1]
      rfl
    · obtain ⟨⟨inner, after⟩, hcut, hpair⟩ := Option.map_eq_some_iff.mp h
      cases hpair
      rw [ih hcut]
      rfl

-- ---------------------------------------------------------------------------
-- Steps
-- ---------------------------------------------------------------------------

def step? (names : List Text) : Text → Option (List Markup × List Text × Text)
  | '<' :: '!' :: rest => (declaration? rest).map fun (said, rest) => (said, names, rest)
  | '<' :: '?' :: rest => (instruction? rest).map fun rest => ([], names, rest)
  | '<' :: '/' :: rest =>
    match cutTag none rest, names with
    | some (content, rest), name :: outer =>
      if endName content = name then some ([.closed], outer, rest) else none
    | _, _ => none
  | '<' :: rest =>
    (cutTag none rest).map fun (content, rest) =>
      let (name, attributes, closes) := startTag content
      if closes then ([.opened name attributes, .closed], names, rest)
      else ([.opened name attributes], name :: names, rest)
  | '&' :: rest =>
    match Text.cutAt endsReference rest with
    | (name, ';' :: rest) => some ([.reference name], names, rest)
    | _ => none
  | t => some ([.text (plainEnds (Text.cutAt endsText t).1)], names, (Text.cutAt endsText t).2)

theorem step?_text (htag : ∀ rest, t ≠ '<' :: rest) (hreference : ∀ rest, t ≠ '&' :: rest) :
    step? names t = some ([.text (plainEnds (Text.cutAt endsText t).1)], names, (Text.cutAt endsText t).2) := by
  rw [step?.eq_def]
  split
  · exact absurd rfl (htag _)
  · exact absurd rfl (htag _)
  · exact absurd rfl (htag _)
  · exact absurd rfl (htag _)
  · exact absurd rfl (hreference _)
  · rfl

theorem step?_tag (h : ∀ c ∈ t.head?, c ∉ ['!', '?', '/']) : step? names ('<' :: t) =
    (cutTag none t).map fun (content, rest) =>
      let (name, attributes, closes) := startTag content
      if closes then ([.opened name attributes, .closed], names, rest)
      else ([.opened name attributes], name :: names, rest) := by
  rw [step?.eq_def]
  split
  · rename_i heq
    exact absurd (h '!' (by rw [(List.cons.inj heq).2]; rfl)) (by decide)
  · rename_i heq
    exact absurd (h '?' (by rw [(List.cons.inj heq).2]; rfl)) (by decide)
  · rename_i heq
    exact absurd (h '/' (by rw [(List.cons.inj heq).2]; rfl)) (by decide)
  · rename_i heq
    rw [(List.cons.inj heq).2]
  · rename_i heq
    exact absurd (List.cons.inj heq).1 (by decide)
  · rename_i hno _
    exact absurd rfl (hno _)

theorem scan_succ (hne : t ≠ []) : scan (fuel + 1) names t =
    match step? names t with
    | some (said, names, rest) => said ++ scan fuel names rest
    | none => [.broken] := by
  rw [scan.eq_def, step?.eq_def]
  split
  · cases ‹fuel + 1 = 0›
  · contradiction
  · rename_i rest heq
    obtain rfl := Nat.succ.inj heq
    simp only
    cases declaration? rest <;> rfl
  · rename_i rest heq
    obtain rfl := Nat.succ.inj heq
    simp only
    cases instruction? rest <;> rfl
  · rename_i rest heq
    obtain rfl := Nat.succ.inj heq
    simp only
    split
    · split <;> simp_all
    · simp_all
  · rename_i rest _ _ _ heq
    obtain rfl := Nat.succ.inj heq
    simp only
    cases hcut : cutTag none rest with
    | none => rfl
    | some cut =>
      obtain ⟨content, rest⟩ := cut
      simp only [Option.map_some]
      split <;> rfl
  · rename_i rest heq
    obtain rfl := Nat.succ.inj heq
    simp only
    split <;> simp_all
  · rename_i heq _ _ _ _ htag hreference
    obtain rfl := Nat.succ.inj heq
    rw [← step?.eq_def, step?_text htag hreference]
    rfl

theorem declaration?_shorter (h : declaration? t = some (said, rest)) : rest.length < t.length := by
  unfold declaration? at h
  split at h
  · obtain ⟨⟨before, after⟩, hcut, hpair⟩ := Option.map_eq_some_iff.mp h
    cases hpair
    exact cutMark_shorter hcut (by decide)
  split at h
  · obtain ⟨⟨before, after⟩, hcut, hpair⟩ := Option.map_eq_some_iff.mp h
    cases hpair
    exact cutMark_shorter hcut (by decide)
  split at h
  · obtain ⟨⟨content, after⟩, hcut, hpair⟩ := Option.bind_eq_some_iff.mp h
    simp only at hpair
    split at hpair
    · cases hpair
    · cases hpair
      have hlen := congrArg List.length (cutType_sound hcut)
      simp only [List.length_drop, List.length_append, List.length_cons] at hlen
      omega
  · cases h

theorem instruction?_shorter (h : instruction? t = some rest) : rest.length < t.length := by
  unfold instruction? at h
  split at h
  · cases h
  · obtain ⟨⟨before, after⟩, hcut, rfl⟩ := Option.map_eq_some_iff.mp h
    exact cutMark_shorter (k := 0) hcut (by decide)

/-- Every step uses up some text. -/
theorem step?_shorter (hne : t ≠ []) (h : step? names t = some (said, outer, rest)) : rest.length < t.length := by
  rw [step?.eq_def] at h
  split at h
  · obtain ⟨⟨said', rest'⟩, hcut, hpair⟩ := Option.map_eq_some_iff.mp h
    cases hpair
    have hlen := declaration?_shorter hcut
    simp
    omega
  · obtain ⟨rest', hcut, hpair⟩ := Option.map_eq_some_iff.mp h
    cases hpair
    have hlen := instruction?_shorter hcut
    simp
    omega
  · split at h
    · rename_i hcut
      split at h
      · cases h
        have hlen := length_cutTag hcut
        simp only [List.length_cons]
        omega
      · cases h
    · cases h
  · obtain ⟨⟨content, rest'⟩, hcut, hpair⟩ := Option.map_eq_some_iff.mp h
    have hlen := length_cutTag hcut
    simp only at hpair
    split at hpair
    all_goals
      cases hpair
      simp only [List.length_cons]
      omega
  · rename_i after
    split at h
    · rename_i hcut
      cases h
      have hlen := Text.cutAt_snd_length endsReference after
      rw [hcut] at hlen
      simp at hlen ⊢
      omega
    · cases h
  · rename_i htag hreference
    cases h
    obtain ⟨c, rest', rfl⟩ := List.exists_cons_of_ne_nil hne
    have hc : endsText c = false := by
      simp only [endsText, Bool.or_eq_false_iff, decide_eq_false_iff_not]
      exact ⟨fun h => htag rest' (h ▸ rfl), fun h => hreference rest' (h ▸ rfl)⟩
    have hlen := Text.cutAt_snd_length endsText rest'
    simp only [Text.cutAt] at hlen
    simp only [Text.cutAt, List.dropWhile_cons, hc, Bool.not_false, if_true, List.length_cons]
    omega

theorem scan_fuel {more : Nat} (hfuel : t.length < fuel) (hmore : t.length < more) :
    scan fuel names t = scan more names t := by
  induction fuel generalizing more names t with
  | zero => omega
  | succ fuel ih =>
    obtain ⟨more, rfl⟩ : ∃ k, more = k + 1 := ⟨more - 1, by omega⟩
    by_cases hne : t = []
    · subst hne
      rfl
    · rw [scan_succ hne, scan_succ hne]
      cases hstep : step? names t with
      | none => rfl
      | some step =>
        obtain ⟨said, outer, rest⟩ := step
        have hlen := step?_shorter hne hstep
        simp only
        rw [ih (by omega) (by omega : rest.length < more)]

def reads (names : List Text) (t : Text) : List Markup := scan (t.length + 1) names t

theorem reads_of_step (hne : t ≠ []) (h : step? names t = some (said, outer, rest)) :
    reads names t = said ++ reads outer rest := by
  have hlen := step?_shorter hne h
  rw [reads, scan_succ hne, h]
  exact congrArg (said ++ ·) (scan_fuel hlen (Nat.lt_succ_self _))

theorem reads_of_no_step (hne : t ≠ []) (h : step? names t = none) : reads names t = [.broken] := by
  rw [reads, scan_succ hne, h]

-- ---------------------------------------------------------------------------
-- Texts, tags and comments
-- ---------------------------------------------------------------------------

theorem reads_cut {c : Char} (hc : endsText c = false) (names : List Text) (t : Text) :
    reads names (c :: t) =
      .text (plainEnds (Text.cutAt endsText (c :: t)).1) :: reads names (Text.cutAt endsText (c :: t)).2 := by
  simp only [endsText, Bool.or_eq_false_iff, decide_eq_false_iff_not] at hc
  exact reads_of_step (List.cons_ne_nil c t)
    (step?_text (fun rest h => hc.1 (List.cons.inj h).1) (fun rest h => hc.2 (List.cons.inj h).1))

theorem reads_text (hne : t ≠ []) (ht : t.any endsText = false) (hu : ∀ c ∈ u.head?, endsText c = true) :
    reads names (t ++ u) = .text (plainEnds t) :: reads names u := by
  have hplain : ∀ c ∈ t, endsText c = false := by simpa using ht
  obtain ⟨c, rest, rfl⟩ := List.exists_cons_of_ne_nil hne
  rw [List.cons_append, reads_cut (hplain c List.mem_cons_self), ← List.cons_append, Text.cutAt_of_stop hplain hu]

def IsTagName (name : Text) : Prop :=
  name ≠ [] ∧ ∀ c ∈ name, c ∉ ['<', '>', '/', '!', '?', '[', ']', '-', '"', '\''] ∧ isSpace c = false

instance (name : Text) : Decidable (IsTagName name) :=
  @instDecidableAnd _ _ inferInstance (List.decidableBAll _ name)

theorem IsTagName.plain (h : IsTagName name) : ∀ c ∈ name, c ≠ '>' ∧ isQuote c = false := by
  intro c hc
  obtain ⟨hmem, -⟩ := h.2 c hc
  simp only [List.mem_cons, not_or] at hmem
  simp [isQuote, hmem]

theorem reads_opened (h : IsTagName name) (rest : Text) :
    reads names ('<' :: (name ++ '>' :: rest)) = .opened name [] :: reads (name :: names) rest := by
  have hfirst : ∀ c ∈ (name ++ '>' :: rest).head?, c ∉ ['!', '?', '/'] := by
    obtain ⟨c, more, rfl⟩ := List.exists_cons_of_ne_nil h.1
    have hc := (h.2 c List.mem_cons_self).1
    simp only [List.mem_cons, not_or] at hc
    simp [hc]
  have hlast : name.getLast? ≠ some '/' := fun hlast => by
    have hmem := (h.2 _ (List.mem_of_getLast? hlast)).1
    simp at hmem
  have hname : Text.cutAt isSpace name = (name, []) := by
    simpa using Text.cutAt_of_stop (t := name) (u := []) (fun x hx => (h.2 x hx).2) (by simp)
  have hstep : step? names ('<' :: (name ++ '>' :: rest)) = some ([.opened name []], name :: names, rest) := by
    rw [step?_tag hfirst, cutTag_of_plain h.plain]
    simp [startTag, hlast, hname]
  exact reads_of_step (by simp) hstep

theorem endName_of_isTagName (h : IsTagName name) : endName name = name := by
  have hdrop : name.reverse.dropWhile isSpace = name.reverse := by
    obtain ⟨last, front, hlast⟩ := List.exists_cons_of_ne_nil (List.reverse_ne_nil_iff.mpr h.1)
    have hmem : last ∈ name := List.mem_reverse.mp (hlast ▸ List.mem_cons_self)
    rw [hlast, List.dropWhile_cons_of_neg (by simp [(h.2 last hmem).2])]
  rw [endName, hdrop, List.reverse_reverse]

theorem reads_closed (h : IsTagName name) (rest : Text) :
    reads (name :: outer) ('<' :: '/' :: (name ++ '>' :: rest)) = .closed :: reads outer rest := by
  have hstep : step? (name :: outer) ('<' :: '/' :: (name ++ '>' :: rest)) = some ([.closed], outer, rest) := by
    have hcut := cutTag_of_plain h.plain rest
    simp only [step?, hcut, endName_of_isTagName h, if_true]
  exact reads_of_step (by simp) hstep

theorem reads_comment (h : cutMark "-->".toList t = some (before, after)) :
    reads names ("<!--".toList ++ t) = reads names after := by
  have hstep : step? names ("<!--".toList ++ t) = some ([], names, after) := by
    show step? names ('<' :: '!' :: '-' :: '-' :: t) = _
    have hmark : "--".toList.isPrefixOf ('-' :: '-' :: t) = true := rfl
    rw [step?, declaration?, if_pos hmark]
    show Option.map _ (Option.map _ (cutMark "-->".toList t)) = _
    rw [h]
    rfl
  exact reads_of_step (by simp) hstep

-- ---------------------------------------------------------------------------
-- The content of an element
-- ---------------------------------------------------------------------------

def content? : List Markup → Option Text
  | .closed :: _ => some []
  | .text t :: .closed :: _ => some t
  | _ => none

theorem content?_joined_text {said : List Markup} (h : content? (joined (.text u :: said)) = some t) :
    ∃ v, content? (joined said) = some v ∧ t = u ++ v := by
  rw [joined] at h
  cases hjoined : joined said with
  | nil => simp [hjoined, content?] at h
  | cons piece more =>
    rw [hjoined] at h
    cases piece with
    | closed => exact ⟨[], rfl, by simpa [content?, eq_comm] using h⟩
    | text v =>
      cases more with
      | nil => simp [content?] at h
      | cons next more =>
        cases next with
        | closed => exact ⟨v, rfl, by simpa [content?, eq_comm] using h⟩
        | opened _ _ | text _ | reference _ | broken => simp [content?] at h
    | opened _ _ | reference _ | broken => simp [content?] at h

theorem joined_reference {c : Char} (h : resolve? name = some c) (said : List Markup) :
    joined (.reference name :: said) = joined (.text [c] :: said) := by
  rw [joined, joined, h]
  cases joined said with
  | nil => rfl
  | cons piece more => cases piece <;> rfl

theorem content?_joined_reference {said : List Markup} (h : content? (joined (.reference name :: said)) = some t) :
    ∃ c v, content? (joined said) = some v ∧ t = c :: v := by
  cases hresolve : resolve? name with
  | none => simp [joined, hresolve, content?] at h
  | some c =>
    rw [joined_reference hresolve] at h
    obtain ⟨v, hread, rfl⟩ := content?_joined_text h
    exact ⟨c, v, hread, rfl⟩

-- ---------------------------------------------------------------------------
-- Text in front of an end tag
-- ---------------------------------------------------------------------------

/-- Behind the end tag nothing can close a construct that was opened in front of it, and after a document
type that has swallowed the end tag the element still has another one inside. -/
structure Fence (name rest : Text) : Prop where
  tag : IsTagName name
  quiet : ∀ c ∈ rest, c ∉ ['-', ']', '?']
  nested : ∀ outer, content? (joined (reads (name :: outer) rest)) = none

namespace Fence

variable {v : Text}

def text (name rest : Text) : Text := '<' :: '/' :: (name ++ '>' :: rest)

theorem not_mem (h : Fence name rest) {c : Char} (hc : c ∈ ['-', ']', '?']) : c ∉ text name rest := by
  intro hmem
  simp only [text, List.mem_cons, List.mem_append] at hmem
  rcases hmem with rfl | rfl | hmem | rfl | hmem
  · simp at hc
  · simp at hc
  · have hname := (h.tag.2 c hmem).1
    simp only [List.mem_cons, not_or] at hname hc
    rcases hc with rfl | rfl | rfl | rfl | rfl | hc <;> simp_all
  · simp at hc
  · exact h.quiet c hmem hc

theorem of_cutMark (h : Fence name rest) (hstart : '<' ∉ mark) {c : Char} (hc : c ∈ mark)
    (hquiet : c ∈ ['-', ']', '?']) (hcut : cutMark mark (v ++ text name rest) = some (before, after)) :
    ∃ v', v = before ++ mark ++ v' ∧ after = v' ++ text name rest := by
  rcases List.append_eq_append_iff.mp (cutMark_sound hcut) with ⟨m, hm, hfence⟩ | ⟨v', hv, hafter⟩
  · cases m with
    | nil => exact ⟨[], by simpa using hm.symm, by simpa using hfence.symm⟩
    | cons first m =>
      obtain rfl : '<' = first := (List.cons.inj hfence).1
      rcases List.append_eq_append_iff.mp hm.symm with ⟨x, -, hx⟩ | ⟨x, -, hx⟩
      · refine absurd ?_ (h.not_mem hquiet)
        rw [hfence, hx]
        simp [hc]
      · exact absurd (by rw [hx]; simp) hstart
  · exact ⟨v', hv, hafter⟩

theorem mem_of_cutType (h : cutType true t = some (content, after)) : ']' ∈ t := by
  induction t generalizing content after with
  | nil => cases h
  | cons c t ih =>
    rw [cutType] at h
    simp only [Bool.not_true, Bool.false_eq_true, and_false, if_false, if_true] at h
    obtain ⟨⟨inner, after⟩, hcut, -⟩ := Option.map_eq_some_iff.mp h
    by_cases hc : c = ']'
    · simp [hc]
    · simp only [ne_eq, hc, not_false_eq_true, decide_true] at hcut
      exact List.mem_cons_of_mem c (ih hcut)

theorem cutType_of_plain (h : ∀ c ∈ content, c ≠ '>' ∧ c ≠ '[') (rest : Text) :
    cutType false (content ++ '>' :: rest) = some (content, rest) := by
  induction content with
  | nil => simp [cutType]
  | cons c content ih =>
    obtain ⟨hend, hopen⟩ := h c List.mem_cons_self
    rw [List.cons_append, cutType, if_neg (by simp [hend])]
    simp [hopen, ih fun x hx => h x (List.mem_cons_of_mem c hx)]

theorem of_cutType (h : Fence name rest) (hcut : cutType inside (v ++ text name rest) = some (content, after)) :
    (∃ v', v = content ++ '>' :: v' ∧ after = v' ++ text name rest) ∨ after = rest := by
  induction v generalizing inside content with
  | nil =>
    cases inside with
    | false =>
      have hplain : ∀ c ∈ '<' :: '/' :: name, c ≠ '>' ∧ c ≠ '[' := by
        intro c hc
        rcases List.mem_cons.mp hc with rfl | hc
        · decide
        rcases List.mem_cons.mp hc with rfl | hc
        · decide
        have hname := (h.tag.2 c hc).1
        simp only [List.mem_cons, not_or] at hname
        exact ⟨hname.2.1, hname.2.2.2.2.2.1⟩
      rw [List.nil_append, text, ← List.cons_append, ← List.cons_append, cutType_of_plain hplain] at hcut
      cases hcut
      exact .inr rfl
    | true => exact absurd (mem_of_cutType hcut) (h.not_mem (c := ']') (by simp))
  | cons c v ih =>
    rw [List.cons_append, cutType] at hcut
    split at hcut
    · rename_i hend
      cases hcut
      exact .inl ⟨v, by rw [hend.1]; rfl, rfl⟩
    · obtain ⟨⟨inner, after'⟩, hcut, hpair⟩ := Option.map_eq_some_iff.mp hcut
      cases hpair
      rcases ih hcut with ⟨v', rfl, hafter⟩ | rfl
      · exact .inl ⟨v', rfl, hafter⟩
      · exact .inr rfl

theorem of_isPrefixOf {fence : Text} (hstart : '<' ∉ mark) (hfence : fence.head? = some '<')
    (h : mark.isPrefixOf (v ++ fence) = true) : ∃ w, v = mark ++ w := by
  obtain ⟨m, hm⟩ := List.isPrefixOf_iff_prefix.mp h
  rcases List.append_eq_append_iff.mp hm with ⟨w, hw, -⟩ | ⟨x, hx, hsplit⟩
  · exact ⟨w, hw⟩
  · cases x with
    | nil => exact ⟨[], by simpa using hx.symm⟩
    | cons first x =>
      obtain rfl : first = '<' := by simpa [hsplit] using hfence
      exact absurd (by rw [hx]; simp) hstart

/-- A declaration says less than it takes up; only a document type can reach behind the fence. -/
theorem of_declaration (h : Fence name rest) (hdec : declaration? (v ++ text name rest) = some (said, after)) :
    (∃ v', after = v' ++ text name rest ∧ v'.length < v.length ∧
      (said = [] ∨ ∃ t, said = [.text t] ∧ t.length + v'.length < v.length)) ∨ said = [] ∧ after = rest := by
  unfold declaration? at hdec
  split at hdec
  · rename_i hmark
    obtain ⟨w, rfl⟩ := of_isPrefixOf (by decide) rfl hmark
    obtain ⟨⟨before, after'⟩, hcut, hpair⟩ := Option.map_eq_some_iff.mp hdec
    cases hpair
    obtain ⟨v', rfl, rfl⟩ := h.of_cutMark (v := w) (c := '-') (by decide) (by decide) (by decide) hcut
    exact .inl ⟨v', rfl, by simp; omega, .inl rfl⟩
  split at hdec
  · rename_i hmark
    obtain ⟨w, rfl⟩ := of_isPrefixOf (by decide) rfl hmark
    obtain ⟨⟨before, after'⟩, hcut, hpair⟩ := Option.map_eq_some_iff.mp hdec
    cases hpair
    obtain ⟨v', rfl, rfl⟩ := h.of_cutMark (v := w) (c := ']') (by decide) (by decide) (by decide) hcut
    have hlen := length_plainEnds_le before
    exact .inl ⟨v', rfl, by simp; omega, .inr ⟨_, rfl, by simp; omega⟩⟩
  split at hdec
  · rename_i hmark
    rw [Text.asciiLower, List.map_append] at hmark
    obtain ⟨w, hw⟩ := of_isPrefixOf (by decide) rfl hmark
    have hseven : 7 ≤ v.length := by
      have hlen := congrArg List.length hw
      simp at hlen
      omega
    obtain ⟨⟨content, after'⟩, hcut, hpair⟩ := Option.bind_eq_some_iff.mp hdec
    simp only at hpair
    split at hpair
    · cases hpair
    · cases hpair
      rw [List.drop_append_of_le_length hseven] at hcut
      rcases h.of_cutType hcut with ⟨v', hv, rfl⟩ | rfl
      · refine .inl ⟨v', rfl, ?_, .inl rfl⟩
        have hlen := congrArg List.length hv
        simp at hlen
        omega
      · exact .inr ⟨rfl, rfl⟩
  · cases hdec

theorem of_instruction (h : Fence name rest) (hins : instruction? (v ++ text name rest) = some after) :
    ∃ v', after = v' ++ text name rest ∧ v'.length < v.length := by
  unfold instruction? at hins
  split at hins
  · cases hins
  · obtain ⟨⟨before, after'⟩, hcut, rfl⟩ := Option.map_eq_some_iff.mp hins
    obtain ⟨v', rfl, rfl⟩ := h.of_cutMark (c := '?') (by decide) (by decide) (by decide) hcut
    exact ⟨v', rfl, by simp; omega⟩

/-- What is read as the text of the element takes up no less in front of its end tag, and more if any markup
is there. -/
def Bounded (name rest : Text) (outer : List Text) (u : Text) : Prop :=
  ∀ t, content? (joined (reads (name :: outer) (u ++ text name rest))) = some t →
    t.length ≤ u.length ∧ (t.length = u.length → ∀ c ∈ u, endsText c = false)

theorem Bounded.of_lt (h : ∀ t, content? (joined (reads (name :: outer) (u ++ text name rest))) = some t →
    t.length < u.length) : Bounded name rest outer u := fun t hread =>
  ⟨Nat.le_of_lt (h t hread), fun heq => absurd heq (Nat.ne_of_lt (h t hread))⟩

theorem cutAt_fence {p : Char → Bool} (hp : p '<' = true) (v name rest : Text) :
    Text.cutAt p (v ++ text name rest) = ((Text.cutAt p v).1, (Text.cutAt p v).2 ++ text name rest) :=
  Text.cutAt_append_stop v (List.cons_ne_nil _ _) fun c hc => by rwa [← Option.some.inj hc]

theorem bounded_reference (ih : ∀ w, w.length ≤ v.length → Bounded name rest outer w) :
    Bounded name rest outer ('&' :: v) := by
  refine .of_lt fun t hread => ?_
  have hcut := cutAt_fence (p := endsReference) (by decide) v name rest
  have hsplit := congrArg List.length (Text.cutAt_append endsReference v)
  generalize Text.cutAt endsReference v = cut at hcut hsplit
  obtain ⟨before, after⟩ := cut
  rw [List.cons_append] at hread
  -- Only a semicolon ends a reference, and the fence begins with none.
  rcases after with _ | ⟨c, after⟩
  · have hstep : step? (name :: outer) ('&' :: (v ++ text name rest)) = none := by
      rw [step?, hcut]
      rfl
    rw [reads_of_no_step (by simp) hstep] at hread
    cases hread
  by_cases hc : c = ';'
  · subst hc
    have hstep : step? (name :: outer) ('&' :: (v ++ text name rest)) =
        some ([.reference before], name :: outer, after ++ text name rest) := by simp [step?, hcut]
    rw [reads_of_step (by simp) hstep] at hread
    obtain ⟨c, t', hread', rfl⟩ := content?_joined_reference hread
    simp at hsplit
    have hlen := (ih after (by omega) t' hread').1
    simp
    omega
  · have hstep : step? (name :: outer) ('&' :: (v ++ text name rest)) = none := by simp [step?, hcut, hc]
    rw [reads_of_no_step (by simp) hstep] at hread
    cases hread

theorem bounded_text {c : Char} (hc : endsText c = false)
    (ih : ∀ w, w.length ≤ v.length → Bounded name rest outer w) : Bounded name rest outer (c :: v) := by
  intro t hread
  have hcut := cutAt_fence (p := endsText) (by decide) (c :: v) name rest
  have hsplit := Text.cutAt_append endsText (c :: v)
  have hsaid : ∀ x ∈ (Text.cutAt endsText (c :: v)).1, endsText x = false := fun x hx => by
    simpa using List.mem_takeWhile_imp hx
  have hfirst : (Text.cutAt endsText (c :: v)).1 ≠ [] := by simp [Text.cutAt, hc]
  generalize Text.cutAt endsText (c :: v) = cut at hcut hsplit hsaid hfirst
  obtain ⟨said, after⟩ := cut
  simp only at hcut hsplit hsaid hfirst
  rw [List.cons_append, reads_cut hc, ← List.cons_append, hcut] at hread
  obtain ⟨t', hread', rfl⟩ := content?_joined_text hread
  have hsplitLength := congrArg List.length hsplit
  have hpos := List.length_pos_iff.mpr hfirst
  have hplain := length_plainEnds_le said
  simp only [List.length_append, List.length_cons] at hsplitLength
  obtain ⟨hle, hrest⟩ := ih after (by omega) t' hread'
  refine ⟨by simp; omega, fun heq x hx => ?_⟩
  simp only [List.length_append, List.length_cons] at heq
  rw [← hsplit] at hx
  rcases List.mem_append.mp hx with hx | hx
  · exact hsaid x hx
  · exact hrest (by omega) x hx

theorem bounded_declaration (h : Fence name rest) (ih : ∀ w, w.length ≤ v.length → Bounded name rest outer w) :
    Bounded name rest outer ('<' :: '!' :: v) := by
  refine .of_lt fun t hread => ?_
  rw [List.cons_append, List.cons_append] at hread
  cases hdec : declaration? (v ++ text name rest) with
  | none =>
    rw [reads_of_no_step (by simp) (by simp [step?, hdec])] at hread
    cases hread
  | some cut =>
    obtain ⟨said, after⟩ := cut
    have hstep : step? (name :: outer) ('<' :: '!' :: (v ++ text name rest)) = some (said, name :: outer, after) := by
      simp [step?, hdec]
    rw [reads_of_step (by simp) hstep] at hread
    rcases h.of_declaration hdec with ⟨v', rfl, hshort, rfl | ⟨s, rfl, hs⟩⟩ | ⟨rfl, rfl⟩
    · have hlen := (ih v' (by omega) t hread).1
      simp
      omega
    · obtain ⟨t', hread', rfl⟩ := content?_joined_text hread
      have hlen := (ih v' (by omega) t' hread').1
      simp
      omega
    · rw [List.nil_append, h.nested outer] at hread
      cases hread

theorem bounded_instruction (h : Fence name rest) (ih : ∀ w, w.length ≤ v.length → Bounded name rest outer w) :
    Bounded name rest outer ('<' :: '?' :: v) := by
  refine .of_lt fun t hread => ?_
  rw [List.cons_append, List.cons_append] at hread
  cases hins : instruction? (v ++ text name rest) with
  | none =>
    rw [reads_of_no_step (by simp) (by simp [step?, hins])] at hread
    cases hread
  | some after =>
    have hstep : step? (name :: outer) ('<' :: '?' :: (v ++ text name rest)) = some ([], name :: outer, after) := by
      simp [step?, hins]
    rw [reads_of_step (by simp) hstep] at hread
    obtain ⟨v', rfl, hshort⟩ := h.of_instruction hins
    have hlen := (ih v' (by omega) t hread).1
    simp
    omega

/-- Whatever end tag stands there, nothing of it is text. -/
theorem bounded_end : Bounded name rest outer ('<' :: '/' :: v) := by
  refine .of_lt fun t hread => ?_
  rw [List.cons_append, List.cons_append] at hread
  cases hcut : cutTag none (v ++ text name rest) with
  | none =>
    rw [reads_of_no_step (by simp) (by simp [step?, hcut])] at hread
    cases hread
  | some cut =>
    obtain ⟨content, after⟩ := cut
    by_cases hname : endName content = name
    · have hstep : step? (name :: outer) ('<' :: '/' :: (v ++ text name rest)) = some ([.closed], outer, after) := by
        simp [step?, hcut, hname]
      rw [reads_of_step (by simp) hstep] at hread
      cases hread
      simp
    · rw [reads_of_no_step (by simp) (by simp [step?, hcut, hname])] at hread
      cases hread

theorem bounded_start (hfirst : ∀ c ∈ v.head?, c ∉ ['!', '?', '/']) : Bounded name rest outer ('<' :: v) := by
  refine .of_lt fun t hread => ?_
  have hfirst' : ∀ c ∈ (v ++ text name rest).head?, c ∉ ['!', '?', '/'] := by
    cases v with
    | nil => simp [text]
    | cons c v => simpa using hfirst
  rw [List.cons_append] at hread
  cases hstep : step? (name :: outer) ('<' :: (v ++ text name rest)) with
  | none =>
    rw [reads_of_no_step (by simp) hstep] at hread
    cases hread
  | some step =>
    obtain ⟨said, names, after⟩ := step
    rw [reads_of_step (by simp) hstep] at hread
    rw [step?_tag hfirst'] at hstep
    obtain ⟨⟨content, after'⟩, -, hpair⟩ := Option.map_eq_some_iff.mp hstep
    simp only at hpair
    split at hpair
    all_goals
      cases hpair
      cases hread

theorem bounded (h : Fence name rest) (outer : List Text) (u : Text) : Bounded name rest outer u := by
  induction hlen : u.length using Nat.strongRecOn generalizing u with
  | ind len ih =>
    subst hlen
    have hshorter {c : Char} {v : Text} (hu : u = c :: v) (w : Text) (hw : w.length ≤ v.length) :
        Bounded name rest outer w :=
      ih w.length (by simp [hu]; omega) w rfl
    cases u with
    | nil =>
      intro t hread
      rw [List.nil_append, text, reads_closed h.tag] at hread
      cases hread
      simp
    | cons c v =>
      by_cases hreference : c = '&'
      · exact hreference ▸ bounded_reference (hshorter rfl)
      by_cases htag : c = '<'
      · subst htag
        rcases v with _ | ⟨second, w⟩
        · exact bounded_start (by simp)
        have ih' (x : Text) (hx : x.length ≤ w.length) := hshorter rfl x (Nat.le_succ_of_le hx)
        by_cases hdeclaration : second = '!'
        · exact hdeclaration ▸ h.bounded_declaration ih'
        by_cases hinstruction : second = '?'
        · exact hinstruction ▸ h.bounded_instruction ih'
        by_cases hend : second = '/'
        · exact hend ▸ bounded_end
        · exact bounded_start (by simp [hdeclaration, hinstruction, hend])
      · exact bounded_text (by simp [endsText, htag, hreference]) (hshorter rfl)

end Fence

end Markup

end SafeFiles
