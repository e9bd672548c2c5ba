import SafeFiles.Proofs.Disk.EntryLaws
import SafeFiles.Proofs.MarkupLaws

/-!
# Reading documents

A document is refused or every element of it is taken up as a field that is known
and new (`Document.fields_opened`), and the white space between the elements does
not count. The configuration then has what the trimmed texts say and is the standard
one elsewhere (`ofFields_eq_ok`).
-/

namespace SafeFiles

namespace Text

variable {t u : Text}

theorem trim_sublist (t : Text) : (trim t).Sublist t := by
  have hend := (List.dropWhile_sublist (l := (trimStart t).reverse) isBlank).reverse
  rw [List.reverse_reverse] at hend
  exact hend.trans (List.dropWhile_sublist isBlank)

theorem trim_eq_nil_iff : trim t = [] ↔ ∀ c ∈ t, isBlank c = true := by
  rw [trim, trimEnd, List.reverse_eq_nil_iff, List.dropWhile_eq_nil_iff]
  simp only [List.mem_reverse]
  refine ⟨fun h => ?_, fun h c hc => h c ((List.dropWhile_sublist isBlank).mem hc)⟩
  rw [← List.dropWhile_eq_nil_iff]
  by_contra hne
  have hfirst := List.head_dropWhile_not isBlank hne
  rw [h _ (List.head_mem hne)] at hfirst
  cases hfirst

theorem trim_ne_nil {c : Char} (hc : isBlank c = false) (hmem : c ∈ t) : trim t ≠ [] := fun hblank => by
  rw [trim_eq_nil_iff.mp hblank c hmem] at hc
  cases hc

theorem trim_map {g : Char → Char} (hg : ∀ c, isBlank (g c) = isBlank c) (t : Text) :
    trim (t.map g) = (trim t).map g := by
  have hblank : isBlank ∘ g = isBlank := funext hg
  simp only [trim, trimEnd, trimStart, List.dropWhile_map, hblank, ← List.map_reverse]

theorem nonBlank?_eq_some_iff : nonBlank? t = some u ↔ trim t = u ∧ u ≠ [] := by
  unfold nonBlank?
  split
  · rename_i hblank
    simp only [hblank, reduceCtorEq, false_iff, not_and, not_not]
    exact Eq.symm
  · rename_i hblank
    rw [Option.some.injEq]
    exact ⟨fun h => ⟨h, h ▸ hblank⟩, And.left⟩

theorem nonBlank?_map {g : Char → Char} (hg : ∀ c, isBlank (g c) = isBlank c) (t : Text) :
    nonBlank? (t.map g) = (nonBlank? t).map (·.map g) := by
  simp only [nonBlank?, trim_map hg, List.map_eq_nil_iff]
  split <;> rfl

end Text

namespace Config

abbrev rootTag : Text := "config".toList

namespace Document

variable {said : List Markup} {f : Field} {name attributes t v : Text} {got texts : Table Field Text}
  {next : Table Field Text → Except DocumentFault (Table Field Text)}

-- ---------------------------------------------------------------------------
-- Elements that are taken up
-- ---------------------------------------------------------------------------

theorem field_ok (h : fields.field name t next got = .ok texts) :
    ∃ f, Field.ofName? (Markup.localName name) = some f ∧ got.contains f = false ∧
      next (got.set f t) = .ok texts := by
  unfold fields.field at h
  split at h
  · cases h
  · rename_i f hname
    split at h
    · cases h
    · rename_i hnew
      exact ⟨f, hname, by simpa using hnew, h⟩

/-- An element that is taken up holds nothing but text. -/
theorem fields_opened (h : fields (.opened name attributes :: said) got = .ok texts) : ∃ f t rest,
    Field.ofName? (Markup.localName name) = some f ∧ got.contains f = false ∧ Markup.content? said = some t ∧
      rest.length < said.length ∧ fields rest (got.set f t) = .ok texts := by
  rw [fields.eq_def] at h
  split at h
  · rename_i heq
    cases heq
  · rename_i heq
    cases heq
  · rename_i heq
    cases heq
    obtain ⟨f, hname, hnew, hok⟩ := field_ok h
    exact ⟨f, _, _, hname, hnew, rfl, Nat.lt_succ_of_lt (Nat.lt_succ_self _), hok⟩
  · rename_i heq
    cases heq
    obtain ⟨f, hname, hnew, hok⟩ := field_ok h
    exact ⟨f, _, _, hname, hnew, rfl, by simp, hok⟩
  · obtain ⟨-, -, -, hok⟩ := field_ok h
    cases hok
  · cases h

theorem fields_keep (h : fields said got = .ok texts) (hv : got.get? f = some v) : texts.get? f = some v := by
  induction hlen : said.length using Nat.strongRecOn generalizing said got with
  | ind len ih =>
    subst hlen
    cases said with
    | nil => cases h
    | cons piece said =>
      cases piece with
      | closed =>
        cases h
        exact hv
      | text t =>
        rw [fields] at h
        split at h
        · exact ih _ (by simp) h hv rfl
        · cases h
      | opened name attributes =>
        obtain ⟨g, t, rest, -, hnew, -, hlen, hok⟩ := fields_opened h
        refine ih _ (Nat.lt_succ_of_lt hlen) hok ?_ rfl
        rw [Table.get?_set, if_neg, hv]
        rintro rfl
        simp [Table.contains, hv] at hnew
      | reference _ | broken => cases h

-- ---------------------------------------------------------------------------
-- White space between the elements
-- ---------------------------------------------------------------------------

variable {blank : Text} {blanks names : List Text}

theorem isGap_append (h : isGap blank = true) (t : Text) : isGap (blank ++ t) = isGap t := by
  rw [isGap, List.all_append]
  exact (congrArg (· && isGap t) h).trans (Bool.true_and _)

theorem fields_blank (h : isGap blank = true) (said : List Markup) (got : Table Field Text) :
    fields (Markup.joined (.text blank :: said)) got = fields (Markup.joined said) got := by
  rw [Markup.joined]
  cases Markup.joined said with
  | nil => simp [fields, h]
  | cons piece more =>
    cases piece with
    | text t =>
      simp only [fields, isGap_append h]
    | opened _ _ | closed | broken => simp [fields, h]
    | reference _ => rfl

theorem fields_blanks (h : ∀ b ∈ blanks, isGap b = true) (said : List Markup) (got : Table Field Text) :
    fields (Markup.joined (blanks.map .text ++ said)) got = fields (Markup.joined said) got := by
  induction blanks with
  | nil => rfl
  | cons b blanks ih =>
    rw [List.map_cons, List.cons_append, fields_blank (h b List.mem_cons_self),
      ih fun c hc => h c (List.mem_cons_of_mem b hc)]

theorem root_blank (h : isGap blank = true) (said : List Markup) :
    root (Markup.joined (.text blank :: said)) = .ok texts ↔ root (Markup.joined said) = .ok texts := by
  rw [Markup.joined]
  cases Markup.joined said with
  | nil => simp [root, h]
  | cons piece more =>
    cases piece with
    | text t =>
      simp only [root, isGap_append h]
      split <;> simp
    | opened _ _ | closed | broken => simp [root, h]
    | reference _ => rfl

theorem root_blanks (h : ∀ b ∈ blanks, isGap b = true) (said : List Markup) :
    root (Markup.joined (blanks.map .text ++ said)) = .ok texts ↔ root (Markup.joined said) = .ok texts := by
  induction blanks with
  | nil => rfl
  | cons b blanks ih =>
    rw [List.map_cons, List.cons_append, root_blank (h b List.mem_cons_self),
      ih fun c hc => h c (List.mem_cons_of_mem b hc)]

end Document

theorem parse_eq_ok {t : Text} {config : Config} (h : Text.trim t ≠ []) :
    parse t = .ok config ↔ ∃ texts, Document.read t = .ok texts ∧ ofFields texts = .ok config := by
  rw [parse, if_neg h]
  cases Document.read t with
  | error f => simp
  | ok texts => cases hfields : ofFields texts <;> simp [hfields]

-- ---------------------------------------------------------------------------
-- Values
-- ---------------------------------------------------------------------------

def given (texts : Table Field Text) (f : Field) : Option Text := (texts.get? f).bind Text.nonBlank?

/-- The configuration has what a text says for a field. -/
def Holds (config : Config) : Field → Text → Prop
  | .logLevel, t => LogLevel.parse? t = some config.logLevel
  | .logFile, t => config.logFile = some t
  | .useTrash, t => truth? t = some config.useTrash
  | .durability, t => Durability.parse? t = some config.durability

instance (config : Config) : (f : Field) → (t : Text) → Decidable (config.Holds f t)
  | .logLevel, _ => inferInstanceAs (Decidable (_ = _))
  | .logFile, _ => inferInstanceAs (Decidable (_ = _))
  | .useTrash, _ => inferInstanceAs (Decidable (_ = _))
  | .durability, _ => inferInstanceAs (Decidable (_ = _))

/-- The configuration has the standard value of a field. -/
def Unset (config : Config) : Field → Prop
  | .logLevel => config.logLevel = standard.logLevel
  | .logFile => config.logFile = standard.logFile
  | .useTrash => config.useTrash = standard.useTrash
  | .durability => config.durability = standard.durability

/-- The texts that are accepted for a field. -/
def Field.accepts : Field → Text → Bool
  | .logLevel, t => (LogLevel.parse? t).isSome
  | .logFile, _ => true
  | .useTrash, t => (truth? t).isSome
  | .durability, t => (Durability.parse? t).isSome

variable {α : Type} {texts : Table Field Text} {config : Config} {f : Field} {t : Text}

theorem value_accept_eq_ok {standard a : α} {parse? : Text → Option α} {refusal : Text → String} :
    value texts f standard (accept parse? refusal) = .ok a ↔
      (given texts f = none → a = standard) ∧ ∀ t, given texts f = some t → parse? t = some a := by
  unfold value
  rw [← given]
  cases given texts f with
  | none => simp [eq_comm]
  | some t => cases hparse : parse? t <;> simp [accept, hparse]

theorem value_logFile_eq_ok {logFile : Option Path} :
    value texts .logFile none (fun t => .ok (some t)) = .ok logFile ↔ logFile = given texts .logFile := by
  unfold value
  rw [← given]
  cases given texts .logFile <;> simp [eq_comm]

theorem ofFields_eq_ok : ofFields texts = .ok config ↔
    ∀ f, (given texts f = none → config.Unset f) ∧ ∀ t, given texts f = some t → config.Holds f t := by
  have hlogFile : config.logFile = given texts .logFile ↔ (given texts .logFile = none → config.Unset .logFile) ∧
      ∀ t, given texts .logFile = some t → config.Holds .logFile t := by
    cases given texts .logFile <;> simp [Unset, Holds, standard]
  simp only [ofFields, bind_eq_ok, value_accept_eq_ok, value_logFile_eq_ok]
  constructor
  · rintro ⟨level, hlevel, file, hfile, trash, htrash, dur, hdur, heq⟩ f
    cases heq
    cases f with
    | logLevel => exact hlevel
    | logFile => exact hlogFile.mp hfile
    | useTrash => exact htrash
    | durability => exact hdur
  · intro h
    exact ⟨_, h .logLevel, _, hlogFile.mpr (h .logFile), _, h .useTrash, _, h .durability, rfl⟩

theorem accepts_of_holds (h : config.Holds f t) : f.accepts t = true := by
  cases f with
  | logFile => rfl
  | logLevel | useTrash | durability => exact Option.isSome_iff_exists.mpr ⟨_, h⟩

/-- A value is read, or is the standard one, unless its text is not accepted. -/
theorem exists_read {given : Option Text} {parse? : Text → Option α} (standard : α)
    (h : ∀ t, given = some t → (parse? t).isSome = true) :
    ∃ a, (given = none → a = standard) ∧ ∀ t, given = some t → parse? t = some a := by
  cases given with
  | none => exact ⟨standard, by simp⟩
  | some t =>
    obtain ⟨a, ha⟩ := Option.isSome_iff_exists.mp (h t rfl)
    exact ⟨a, by simp [ha]⟩

theorem exists_ofFields : (∃ config, ofFields texts = .ok config) ↔
    ∀ f t, given texts f = some t → f.accepts t = true := by
  constructor
  · rintro ⟨config, hok⟩ f t ht
    exact accepts_of_holds ((ofFields_eq_ok.mp hok f).2 t ht)
  · intro h
    obtain ⟨level, hlevel⟩ := exists_read standard.logLevel (h .logLevel)
    obtain ⟨trash, htrash⟩ := exists_read standard.useTrash (h .useTrash)
    obtain ⟨durability, hdurability⟩ := exists_read standard.durability (h .durability)
    refine ⟨⟨level, given texts .logFile, trash, durability⟩, ofFields_eq_ok.mpr fun f => ?_⟩
    cases f with
    | logLevel => exact hlevel
    | logFile => exact ⟨id, fun _ => id⟩
    | useTrash => exact htrash
    | durability => exact hdurability

theorem logFile_of_ofFields (h : ofFields texts = .ok config) : config.logFile = given texts .logFile := by
  obtain ⟨hunset, hholds⟩ := ofFields_eq_ok.mp h .logFile
  cases hgiven : given texts .logFile with
  | none => exact hunset hgiven
  | some t => exact hholds t hgiven

end Config

end SafeFiles
