import SafeFiles.Proofs.DocumentLaws
import SafeFiles.Proofs.WrittenMarkupLaws

/-!
# Written documents

A document as a writer puts it down: the fields in any order, their values escaped,
white space and comments between them. Reading takes up one element after the other
(`Document.fields_element`), so the configuration has what was written
(`parse_written`). Three things are read as XML reads them: a line separator is a line
feed, a prefix of a name does not count, and only what is white space in XML is.
-/

namespace SafeFiles

namespace Config

open Markup (Gap isControl plainSeparators endsText joined reads)

namespace Document

/-- A field as it is written, and what stands behind it. -/
structure Element where
  field : Field
  value : Text
  quiet : value.any isControl = false
  behind : Gap

def Element.text (e : Element) : Text :=
  '<' :: (e.field.name ++ '>' :: (Markup.escape e.value ++ Markup.Fence.text e.field.name e.behind.text))

/-- A document as it is written: what stands in front of the root, behind its start tag, and in it. -/
structure Written where
  before : Gap
  first : Gap
  elements : List Element

namespace Written

def head (w : Written) : Text :=
  w.before.text ++ '<' :: (rootTag ++ '>' :: (w.first.text ++ w.elements.flatMap Element.text))

def text (w : Written) (after : Text) : Text := w.head ++ Markup.Fence.text rootTag after

def written (w : Written) : List Field := w.elements.map Element.field

end Written

-- ---------------------------------------------------------------------------
-- What is read of the elements
-- ---------------------------------------------------------------------------

variable {got texts : Table Field Text} {names : List Text} {t : Text} {f : Field}

theorem isTagName_name (f : Field) : Markup.IsTagName f.name := by
  cases f <;> decide

theorem ofName?_name (f : Field) : Field.ofName? (Markup.localName f.name) = some f := by
  cases f <;> rfl

theorem fields_gap (g : Gap) (ht : ∀ c ∈ t.head?, endsText c = true) (got : Table Field Text) :
    fields (joined (reads names (g.text ++ t))) got = fields (joined (reads names t)) got := by
  obtain ⟨blanks, hblanks, hreads⟩ := g.reads_text names ht
  rw [hreads, fields_blanks hblanks]

theorem fields_element (e : Element) (ht : ∀ c ∈ t.head?, endsText c = true) (got : Table Field Text) :
    fields (joined (reads [rootTag] (e.text ++ t))) got =
      if got.contains e.field then .error (duplicateField e.field)
      else fields (joined (reads [rootTag] t)) (got.set e.field (plainSeparators e.value)) := by
  have htext : e.text ++ t = '<' :: (e.field.name ++ '>' :: (Markup.escape e.value ++
      '<' :: '/' :: (e.field.name ++ '>' :: (e.behind.text ++ t)))) := by
    simp [Element.text, Markup.Fence.text]
  have hclosed : reads [e.field.name, rootTag] ('<' :: '/' :: (e.field.name ++ '>' :: (e.behind.text ++ t))) =
      .closed :: reads [rootTag] (e.behind.text ++ t) := Markup.reads_closed (isTagName_name e.field) _
  have hfield : fields (joined (reads [rootTag] (e.text ++ t))) got = fields.field e.field.name
      (plainSeparators e.value) (fields (joined (reads [rootTag] (e.behind.text ++ t)))) got := by
    rw [htext, Markup.reads_opened (isTagName_name e.field), Markup.joined_opened]
    by_cases hvalue : e.value = []
    · rw [hvalue, Markup.escape, List.flatMap_nil, List.nil_append, hclosed]
      rfl
    · have hreturn : '\r' ∉ e.value := fun hmem => List.any_eq_false.mp e.quiet _ hmem (by decide)
      rw [Markup.joined_reads_escape hvalue hreturn, hclosed, Markup.map_plainEnd e.quiet]
      rfl
  rw [hfield, fields.field, ofName?_name]
  simp only [fields_gap e.behind ht]

def put (got : Table Field Text) (elements : List Element) : Table Field Text :=
  elements.foldl (fun got e => got.set e.field (plainSeparators e.value)) got

theorem get?_put_of_not_mem {elements : List Element} (h : f ∉ elements.map Element.field) (got : Table Field Text) :
    (put got elements).get? f = got.get? f := by
  induction elements generalizing got with
  | nil => rfl
  | cons e elements ih =>
    rw [List.map_cons, List.mem_cons, not_or] at h
    rw [put, List.foldl_cons]
    exact (ih h.2 _).trans ((Table.get?_set got e.field f _).trans (if_neg (Ne.symm h.1)))

theorem get?_put_of_mem {elements : List Element} {e : Element} (hdistinct : (elements.map Element.field).Nodup)
    (he : e ∈ elements) (got : Table Field Text) :
    (put got elements).get? e.field = some (plainSeparators e.value) := by
  induction elements generalizing got with
  | nil => cases he
  | cons first elements ih =>
    obtain ⟨hfirst, hrest⟩ := List.nodup_cons.mp hdistinct
    rw [put, List.foldl_cons]
    rcases List.mem_cons.mp he with rfl | he
    · exact (get?_put_of_not_mem hfirst _).trans ((Table.get?_set got _ _ _).trans (if_pos rfl))
    · exact ih hrest he _

theorem contains_set {key : Field} {value : Text} :
    (got.set key value).contains f = false ↔ f ≠ key ∧ got.contains f = false := by
  rw [Table.contains, Table.get?_set, Table.contains]
  by_cases hf : key = f
  · simp [hf]
  · simp [hf, Ne.symm hf]

theorem endsText_elements (ht : ∀ c ∈ t.head?, endsText c = true) (elements : List Element) :
    ∀ c ∈ (elements.flatMap Element.text ++ t).head?, endsText c = true := by
  cases elements with
  | nil => exact ht
  | cons e elements => simp [Element.text, endsText]

theorem fields_elements {elements : List Element} (ht : ∀ c ∈ t.head?, endsText c = true) :
    fields (joined (reads [rootTag] (elements.flatMap Element.text ++ t))) got = .ok texts ↔
      ((elements.map Element.field).Nodup ∧ ∀ f ∈ elements.map Element.field, got.contains f = false) ∧
        fields (joined (reads [rootTag] t)) (put got elements) = .ok texts := by
  induction elements generalizing got with
  | nil => simp [put]
  | cons e elements ih =>
    rw [List.flatMap_cons, List.append_assoc, fields_element e (endsText_elements ht elements)]
    split
    · rename_i hgot
      simp [hgot]
    · rename_i hnew
      rw [ih]
      refine and_congr_left fun _ => ?_
      constructor
      · rintro ⟨hdistinct, hfree⟩
        refine ⟨List.nodup_cons.mpr ⟨fun hmem => (contains_set.mp (hfree _ hmem)).1 rfl, hdistinct⟩, ?_⟩
        exact List.forall_mem_cons.mpr ⟨Bool.eq_false_iff.mpr hnew, fun f hf => (contains_set.mp (hfree f hf)).2⟩
      · rintro ⟨hdistinct, hfree⟩
        obtain ⟨hfirst, hrest⟩ := List.nodup_cons.mp hdistinct
        refine ⟨hrest, fun f hf => contains_set.mpr ⟨?_, hfree f (List.mem_cons_of_mem _ hf)⟩⟩
        rintro rfl
        exact hfirst hf

/-- A document is read up to any place between its elements, and goes on from what it has by then. -/
theorem read_written (w : Written) (ht : ∀ c ∈ t.head?, endsText c = true) : read (w.head ++ t) = .ok texts ↔
    w.written.Nodup ∧ fields (joined (reads [rootTag] t)) (put [] w.elements) = .ok texts := by
  have htext : w.head ++ t =
      w.before.text ++ '<' :: (rootTag ++ '>' :: (w.first.text ++ (w.elements.flatMap Element.text ++ t))) := by
    simp [Written.head]
  obtain ⟨blanks, hblanks, hreads⟩ := w.before.reads_text []
    (t := '<' :: (rootTag ++ '>' :: (w.first.text ++ (w.elements.flatMap Element.text ++ t)))) (by simp [endsText])
  rw [read, htext, Gap.read_text, hreads, root_blanks hblanks, Markup.reads_opened (by decide), Markup.joined_opened]
  -- The start tag of the root holds no attributes, so what counts is what stands behind it.
  show fields _ [] = .ok texts ↔ _
  rw [fields_gap w.first (endsText_elements ht w.elements), fields_elements ht]
  simp [Written.written, Table.contains, Table.get?]

end Document

-- ---------------------------------------------------------------------------
-- Line separators in values
-- ---------------------------------------------------------------------------

section Separators

variable {α : Type} {table : List (Text × α)} {t : Text} {c : Char} {config : Config}

theorem plainSeparators_eq_self (h : '\u2028' ∉ t) : plainSeparators t = t := by
  refine (List.map_congr_left fun c hc => if_neg ?_).trans (List.map_id t)
  rintro rfl
  exact h hc

theorem isBlank_plainSeparator (c : Char) : isBlank (if c = '\u2028' then '\n' else c) = isBlank c := by
  split
  · rename_i hc
    rw [hc]
    decide
  · rfl

theorem nonBlank?_plainSeparators (t : Text) :
    Text.nonBlank? (plainSeparators t) = (Text.nonBlank? t).map plainSeparators :=
  Text.nonBlank?_map isBlank_plainSeparator t

theorem lookup_eq_none (hc : c ∈ t) (h : ∀ entry ∈ table, c ∉ entry.1) : table.lookup t = none := by
  refine List.lookup_eq_none_iff.mpr fun entry hentry => ?_
  rw [bne_iff_ne]
  rintro rfl
  exact h entry hentry hc

/-- No keyword is spelled with a separator or a line feed, so neither is found. -/
theorem lookup_plainSeparators (h : ∀ entry ∈ table, '\n' ∉ entry.1 ∧ '\u2028' ∉ entry.1) (t : Text) :
    table.lookup (Text.asciiLower (plainSeparators t)) = table.lookup (Text.asciiLower t) := by
  by_cases ht : '\u2028' ∈ t
  · have hplain : '\n' ∈ Text.asciiLower (plainSeparators t) := by
      refine List.mem_map.mpr ⟨_, List.mem_map.mpr ⟨_, ht, rfl⟩, by decide⟩
    have hraw : '\u2028' ∈ Text.asciiLower t := List.mem_map.mpr ⟨_, ht, by decide⟩
    rw [lookup_eq_none hplain fun entry hentry => (h entry hentry).1,
      lookup_eq_none hraw fun entry hentry => (h entry hentry).2]
  · rw [plainSeparators_eq_self ht]

theorem find?_plainSeparators (h : ∀ entry ∈ table, '\n' ∉ entry.1 ∧ '\u2028' ∉ entry.1) (t : Text) :
    Keyword.find? table (plainSeparators t) = Keyword.find? table t := by
  rw [Keyword.find?, Keyword.fold, plainSeparators, Text.trim_map isBlank_plainSeparator]
  exact lookup_plainSeparators h (Text.trim t)

theorem logLevel_plainSeparators (t : Text) : LogLevel.parse? (plainSeparators t) = LogLevel.parse? t :=
  find?_plainSeparators (by decide) t

theorem truth?_plainSeparators (t : Text) : truth? (plainSeparators t) = truth? t :=
  lookup_plainSeparators (by decide) t

theorem durability_plainSeparators (t : Text) : Durability.parse? (plainSeparators t) = Durability.parse? t :=
  find?_plainSeparators (by decide) t

/-- What a field has for a text that is written for it: a separator in the name of a log file is read as a
line feed. -/
def Field.content : Field → Text → Text
  | .logFile, t => plainSeparators t
  | _, t => t

theorem accepts_plainSeparators (f : Field) (t : Text) : f.accepts (plainSeparators t) = f.accepts t := by
  cases f with
  | logFile => rfl
  | logLevel => exact congrArg Option.isSome (logLevel_plainSeparators t)
  | useTrash => exact congrArg Option.isSome (truth?_plainSeparators t)
  | durability => exact congrArg Option.isSome (durability_plainSeparators t)

theorem holds_plainSeparators (f : Field) (t : Text) :
    config.Holds f (plainSeparators t) ↔ config.Holds f (f.content t) := by
  cases f with
  | logFile => exact Iff.rfl
  | logLevel => simp only [Holds, Field.content, logLevel_plainSeparators]
  | useTrash => simp only [Holds, Field.content, truth?_plainSeparators]
  | durability => simp only [Holds, Field.content, durability_plainSeparators]

end Separators

-- ---------------------------------------------------------------------------
-- The configuration of a written document
-- ---------------------------------------------------------------------------

namespace Document

variable {w : Written} {e : Element} {f : Field} {u : Text} {config : Config}

theorem given_put_of_mem (hdistinct : w.written.Nodup) (he : e ∈ w.elements) :
    given (put [] w.elements) e.field = (Text.nonBlank? e.value).map plainSeparators := by
  rw [given, get?_put_of_mem hdistinct he, Option.bind_some, nonBlank?_plainSeparators]

theorem given_put_of_not_mem (h : f ∉ w.written) : given (put [] w.elements) f = none := by
  rw [given, get?_put_of_not_mem h]
  rfl

theorem given_put_eq_some (hdistinct : w.written.Nodup) : given (put [] w.elements) f = some u ↔
    ∃ e ∈ w.elements, e.field = f ∧ ∃ t, Text.nonBlank? e.value = some t ∧ plainSeparators t = u := by
  constructor
  · intro h
    by_cases hmem : f ∈ w.written
    · obtain ⟨e, he, rfl⟩ := List.mem_map.mp hmem
      rw [given_put_of_mem hdistinct he] at h
      exact ⟨e, he, rfl, Option.map_eq_some_iff.mp h⟩
    · rw [given_put_of_not_mem hmem] at h
      cases h
  · rintro ⟨e, he, rfl, t, ht, rfl⟩
    rw [given_put_of_mem hdistinct he, ht]
    rfl

theorem given_put_eq_none (hdistinct : w.written.Nodup) : given (put [] w.elements) f = none ↔
    ∀ e ∈ w.elements, e.field = f → Text.nonBlank? e.value = none := by
  constructor
  · rintro h e he rfl
    rwa [given_put_of_mem hdistinct he, Option.map_eq_none_iff] at h
  · intro h
    refine Option.eq_none_iff_forall_ne_some.mpr fun u hu => ?_
    obtain ⟨e, he, hf, t, ht, -⟩ := (given_put_eq_some hdistinct).mp hu
    rw [h e he hf] at ht
    cases ht

/-- The configuration has what is written in the document, trimmed, and standard values for the rest. -/
structure Written.Gives (w : Written) (config : Config) : Prop where
  set : ∀ e ∈ w.elements, ∀ t ∈ Text.nonBlank? e.value, config.Holds e.field (e.field.content t)
  unset : ∀ f, (∀ e ∈ w.elements, e.field = f → Text.nonBlank? e.value = none) → config.Unset f

/-- Every value that is not blank is accepted for its field. -/
def Written.Accepted (w : Written) : Prop :=
  ∀ e ∈ w.elements, ∀ t ∈ Text.nonBlank? e.value, e.field.accepts t = true

theorem ofFields_put (hdistinct : w.written.Nodup) : ofFields (put [] w.elements) = .ok config ↔ w.Gives config := by
  rw [ofFields_eq_ok]
  simp only [given_put_eq_some hdistinct, given_put_eq_none hdistinct]
  constructor
  · intro h
    refine ⟨fun e he t ht => ?_, fun f => (h f).1⟩
    exact (holds_plainSeparators e.field t).mp ((h e.field).2 _ ⟨e, he, rfl, t, ht, rfl⟩)
  · rintro ⟨hset, hunset⟩ f
    refine ⟨hunset f, ?_⟩
    rintro _ ⟨e, he, rfl, t, ht, rfl⟩
    exact (holds_plainSeparators e.field t).mpr (hset e he t ht)

theorem exists_ofFields_put (hdistinct : w.written.Nodup) :
    (∃ config, ofFields (put [] w.elements) = .ok config) ↔ w.Accepted := by
  rw [exists_ofFields]
  simp only [given_put_eq_some hdistinct]
  constructor
  · intro h e he t ht
    rw [← accepts_plainSeparators]
    exact h e.field _ ⟨e, he, rfl, t, ht, rfl⟩
  · rintro h _ _ ⟨e, he, rfl, t, ht, rfl⟩
    rw [accepts_plainSeparators]
    exact h e he t ht

end Document

open Document

variable {w : Written} {t : Text} {config : Config}

theorem parse_head (ht : ∀ c ∈ t.head?, endsText c = true) : parse (w.head ++ t) = .ok config ↔
    w.written.Nodup ∧ ∃ texts, fields (joined (reads [rootTag] t)) (put [] w.elements) = .ok texts ∧
      ofFields texts = .ok config := by
  have hfull : Text.trim (w.head ++ t) ≠ [] := Text.trim_ne_nil (c := '<') (by decide) (by simp [Written.head])
  simp only [parse_eq_ok hfull, read_written w ht, and_assoc, exists_and_left]

theorem parse_text (after : Text) : parse (w.text after) = .ok config ↔ w.written.Nodup ∧ w.Gives config := by
  have hclosed : reads [rootTag] (Markup.Fence.text rootTag after) = .closed :: reads [] after :=
    Markup.reads_closed (by decide) after
  rw [Written.text, parse_head (by simp [Markup.Fence.text, endsText]), hclosed]
  refine and_congr_right fun hdistinct => ?_
  rw [← ofFields_put hdistinct]
  simp [joined, fields]

theorem parse_refused {name rest : Text} (hname : Markup.IsElementName name) (hends : Markup.endsName rest = true)
    (hknown : ∀ f : Field, f.name = Markup.localName name → f ∈ w.written) :
    parse (w.head ++ '<' :: (name ++ rest)) ≠ .ok config := by
  intro hok
  obtain ⟨hdistinct, texts, hfields, -⟩ := (parse_head (by simp [endsText])).mp hok
  rcases Markup.reads_tag hname hends [rootTag] with hbroken | ⟨attributes, said, hread⟩
  · rw [hbroken] at hfields
    cases hfields
  · rw [hread, Markup.joined_opened] at hfields
    obtain ⟨f, _, _, hf, hnew, -⟩ := fields_opened hfields
    obtain ⟨e, he, rfl⟩ := List.mem_map.mp (hknown f (by simpa using List.find?_some hf))
    rw [Table.contains, get?_put_of_mem hdistinct he] at hnew
    cases hnew

/-- A written document is read exactly if no field is written twice and every value that is not blank is
accepted; the configuration is then the one that the document gives. One more element that repeats a field, or
whose name is no field's once its prefix is cut off, makes it an error wherever it stands. -/
theorem parse_written (w : Written) (after : Text) :
    ((∃ config, parse (w.text after) = .ok config) ↔ w.written.Nodup ∧ w.Accepted) ∧
    (∀ config, parse (w.text after) = .ok config ↔ w.written.Nodup ∧ w.Gives config) ∧
    ∀ name rest, Markup.IsElementName name → Markup.endsName rest = true →
      (∀ f : Field, f.name = Markup.localName name → f ∈ w.written) →
      ∀ config, parse (w.head ++ '<' :: (name ++ rest)) ≠ .ok config := by
  refine ⟨?_, fun config => parse_text after, fun name rest hname hends hknown config =>
    parse_refused hname hends hknown⟩
  simp only [parse_text, exists_and_left]
  refine and_congr_right fun hdistinct => ?_
  rw [← exists_ofFields_put hdistinct]
  exact exists_congr fun config => (ofFields_put hdistinct).symm

def remarked : Written where
  before := .space [] rfl
  first := .comment "\n".toList (by decide) "- all -".toList (by decide +kernel) (.space "\n".toList (by decide))
  elements := [
    ⟨.useTrash, " Yes ".toList, by decide, .space [] rfl⟩,
    ⟨.logFile, "/a<b>&c".toList, by decide, .space "\n".toList (by decide)⟩,
    ⟨.logLevel, " ".toList, by decide, .space [] rfl⟩]

theorem parse_written_remarked :
    parse (remarked.text "\n".toList) = .ok { logFile := some "/a<b>&c".toList, useTrash := true } ∧
    ∀ config, parse (remarked.head ++ '<' :: ("log-level".toList ++ "/></config>".toList)) ≠ .ok config := by
  obtain ⟨-, hgives, hrefused⟩ := parse_written remarked "\n".toList
  have hset : ∀ e ∈ remarked.elements, ∀ t ∈ Text.nonBlank? e.value,
      Holds { logFile := some "/a<b>&c".toList, useTrash := true } e.field (e.field.content t) := by
    decide +kernel
  refine ⟨(hgives _).mpr ⟨by decide, hset, fun f hblank => ?_⟩, hrefused _ _ (by decide) (by decide) ?_⟩
  · cases f with
    | logLevel | durability => rfl
    | logFile => exact absurd (hblank _ (List.mem_cons_of_mem _ List.mem_cons_self) rfl) (by decide)
    | useTrash => exact absurd (hblank _ List.mem_cons_self rfl) (by decide)
  · intro f hf
    cases f <;> exact absurd hf (by decide +kernel)

def separated : Written where
  before := .space [] rfl
  first := .space [] rfl
  elements := [⟨.logFile, "a\u2028b".toList, by decide, .space [] rfl⟩]

/-- The separator is read as a line feed, the prefix of a name does not count, and a space that is none in XML
is refused. -/
theorem parse_unfaithful :
    (separated.written.Nodup ∧ Text.nonBlank? "a\u2028b".toList = some "a\u2028b".toList ∧
      parse (separated.text []) = .ok { logFile := some "a\nb".toList } ∧
      ¬ Holds { logFile := some "a\nb".toList } .logFile "a\u2028b".toList) ∧
    ((∀ f : Field, f.name ≠ "x:log_level".toList) ∧
      parse "<config><x:log_level>debug</x:log_level></config>".toList = .ok { logLevel := .debug }) ∧
    isBlank '\u00a0' = true ∧ (parse "<config>\u00a0</config>".toList).isOk = false := by
  refine ⟨by decide +kernel, ⟨fun f => by cases f <;> decide, by decide +kernel⟩, by decide +kernel⟩

end Config

end SafeFiles
