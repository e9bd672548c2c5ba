import Mathlib.Data.List.DropRight
import SafeFiles.Settings.Format

/-!
# Settings text read back

Written text is a row of tokens, each a plain character or a backslash with the
character behind it. Reading never cuts a token: it splits a line at a separator
between two of them, trims those that are plain blanks, and takes each of the
others for one character. What is lost on the way are therefore blanks that are
written plain, and only at the ends of keys and at the start of values
(`parse_render_eq_iff`).
-/

namespace SafeFiles

namespace Settings

variable {inKey atStart : Bool} {c c' : Char} {t u key value : Text} {ts : List Text}
  {entries : List (Text × Text)} {entry : Text × Text}

def isRawBlank (c : Char) : Bool :=
  isBlank c && !(c = ' ' || c = '\t' || c = '\n' || c = '\r')

-- ---------------------------------------------------------------------------
-- Tokens
-- ---------------------------------------------------------------------------

/-- A text that stands for one character. -/
inductive IsToken : Text → Prop
  | plain {c : Char} : c ≠ '\\' → IsToken [c]
  | escaped (c : Char) : IsToken ['\\', c]

def isBlankToken (u : Text) : Bool := u.all isBlank

theorem isBlankToken_escaped (c : Char) : isBlankToken ['\\', c] = false := rfl

theorem unescape_token (hu : IsToken u) (t : Text) : unescape (u ++ t) = unescape u ++ unescape t := by
  cases hu with
  | plain hc =>
    cases t with
    | nil => simp [unescape]
    | cons d rest => simp [unescape, hc]
  | escaped c => rfl

theorem unescape_flatten (h : ∀ u ∈ ts, IsToken u) : unescape ts.flatten = ts.flatMap unescape := by
  induction ts with
  | nil => rfl
  | cons u ts ih =>
    rw [List.flatten_cons, unescape_token (h u List.mem_cons_self), List.flatMap_cons,
      ih fun v hv => h v (List.mem_cons_of_mem u hv)]

theorem trimStart_flatten (h : ∀ u ∈ ts, IsToken u) :
    Text.trimStart ts.flatten = (ts.dropWhile isBlankToken).flatten := by
  induction ts with
  | nil => rfl
  | cons u ts ih =>
    have hrest := ih fun v hv => h v (List.mem_cons_of_mem u hv)
    unfold Text.trimStart at hrest ⊢
    cases h u List.mem_cons_self with
    | @plain c hc =>
      cases hb : isBlank c with
      | true => simp [isBlankToken, hb, hrest]
      | false => simp [isBlankToken, hb]
    | escaped c => simp [isBlankToken_escaped, show isBlank '\\' = false from rfl]

theorem cutEntry_flatten (h : ∀ u ∈ ts, IsToken u ∧ ∀ c, u = [c] → isSeparator c = false)
    (t : Text) : cutEntry (ts.flatten ++ '=' :: t) = (ts.flatten, t) := by
  induction ts with
  | nil => rfl
  | cons u ts ih =>
    obtain ⟨hu, hsep⟩ := h u List.mem_cons_self
    have hrest := ih fun v hv => h v (List.mem_cons_of_mem u hv)
    cases hu with
    | plain hc =>
      rw [List.flatten_cons, List.singleton_append, List.cons_append,
        cutEntry.eq_4 _ _ (by simp) (by simp [hc])]
      simp [hsep _ rfl, hrest]
    | escaped c => simp [cutEntry, hrest]

/-- Backslashes at the end of whole tokens pair up. -/
theorem slashes_even (h : ∀ u ∈ ts, IsToken u) :
    (ts.flatten.reverse.takeWhile (· = '\\')).length % 2 = 0 := by
  induction ts using List.reverseRecOn with
  | nil => rfl
  | append_singleton ts u ih =>
    have hrest := ih fun v hv => h v (List.mem_append_left _ hv)
    cases h u (by simp) with
    | plain hc => simp [hc]
    | escaped c =>
      by_cases hc : c = '\\'
      · simp [hc]
        omega
      · simp [hc]

theorem trimKey_flatten (h : ∀ u ∈ ts, IsToken u) :
    trimKey ts.flatten = (ts.rdropWhile isBlankToken).flatten := by
  induction ts using List.reverseRecOn with
  | nil => rfl
  | append_singleton ts u ih =>
    have hts : ∀ v ∈ ts, IsToken v := fun v hv => h v (List.mem_append_left _ hv)
    have heven := slashes_even hts
    have hrest := ih hts
    unfold trimKey at hrest ⊢
    cases h u (by simp) with
    | @plain c hc =>
      cases hb : isBlank c with
      | true => simp [isBlankToken, hb, dropBlanks, heven, hrest]
      | false => simp [isBlankToken, hb, dropBlanks]
    | escaped c =>
      have hodd : ((ts.flatten.reverse.takeWhile (· = '\\')).length + 1) % 2 = 1 := by omega
      simp [isBlankToken_escaped, dropBlanks, hodd]

-- ---------------------------------------------------------------------------
-- Written text
-- ---------------------------------------------------------------------------

theorem escapeChar_cases (inKey atStart : Bool) (c : Char) :
    escapeChar inKey atStart c = [c] ∧ c ∉ ['\\', '\n', '\t', '\r'] ∧
      (inKey = true → isSeparator c = false ∧ c ≠ ' ') ∧ (atStart = true → c ∉ ['#', '!', ' ']) ∨
    ∃ x, escapeChar inKey atStart c = ['\\', x] ∧ unescapeChar x = c ∧ isRawBlank c = false ∧
      x ≠ '\n' ∧ x ≠ '\r' := by
  unfold escapeChar
  split
  · rename_i hc
    exact .inr ⟨'\\', rfl, by rw [hc]; decide, by rw [hc]; decide, by decide⟩
  rename_i hslash
  split
  · rename_i hc
    exact .inr ⟨'n', rfl, by rw [hc]; decide, by rw [hc]; decide, by decide⟩
  rename_i hfeed
  split
  · rename_i hc
    exact .inr ⟨'t', rfl, by rw [hc]; decide, by rw [hc]; decide, by decide⟩
  rename_i htab
  split
  · rename_i hc
    exact .inr ⟨'r', rfl, by rw [hc]; decide, by rw [hc]; decide, by decide⟩
  rename_i hreturn
  split
  · rename_i hsep
    obtain rfl | rfl : c = '=' ∨ c = ':' := by simpa [isSeparator] using hsep.2
    · exact .inr ⟨'=', rfl, by decide, by decide, by decide⟩
    · exact .inr ⟨':', rfl, by decide, by decide, by decide⟩
  rename_i hsep
  split
  · rename_i hmark
    rcases hmark.2 with rfl | rfl | rfl
    · exact .inr ⟨'#', rfl, by decide, by decide, by decide⟩
    · exact .inr ⟨'!', rfl, by decide, by decide, by decide⟩
    · exact .inr ⟨' ', rfl, by decide, by decide, by decide⟩
  rename_i hmark
  split
  · rename_i hspace
    exact .inr ⟨' ', by rw [hspace.2], by rw [hspace.2]; decide, by rw [hspace.2]; decide, by decide⟩
  rename_i hspace
  refine .inl ⟨rfl, by simp [hslash, hfeed, htab, hreturn], fun hkey => ?_, fun hstart => ?_⟩
  · simpa [hkey] using And.intro hsep hspace
  · simpa [hstart] using hmark

theorem isToken_escapeChar (inKey atStart : Bool) (c : Char) : IsToken (escapeChar inKey atStart c) := by
  rcases escapeChar_cases inKey atStart c with ⟨h, hc, -⟩ | ⟨x, h, -⟩
  · rw [h]
    exact .plain (by rintro rfl; simp at hc)
  · rw [h]
    exact .escaped x

theorem unescape_escapeChar (inKey atStart : Bool) (c : Char) :
    unescape (escapeChar inKey atStart c) = [c] := by
  rcases escapeChar_cases inKey atStart c with ⟨h, hc, -⟩ | ⟨x, h, hx, -⟩
  · have hslash : c ≠ '\\' := by rintro rfl; simp at hc
    rw [h]
    simp [unescape, hslash]
  · rw [h]
    simp [unescape, hx]

theorem not_lineEnd_of_mem_escapeChar (h : c ∈ escapeChar inKey atStart c') : c ≠ '\n' ∧ c ≠ '\r' := by
  rcases escapeChar_cases inKey atStart c' with ⟨he, hc, -⟩ | ⟨x, he, -, -, hx⟩
  · obtain rfl : c = c' := by simpa [he] using h
    simp at hc
    exact ⟨hc.2.1, hc.2.2.2⟩
  · rw [he] at h
    rcases List.mem_cons.mp h with rfl | h
    · decide
    · rw [List.mem_singleton.mp h]
      exact hx

theorem isBlankToken_escapeChar (h : inKey = true ∨ atStart = true) (c : Char) :
    isBlankToken (escapeChar inKey atStart c) = isRawBlank c := by
  rcases escapeChar_cases inKey atStart c with ⟨he, hc, hkey, hstart⟩ | ⟨x, he, -, hraw, -⟩
  · have hspace : c ≠ ' ' := by
      rcases h with h | h
      · exact (hkey h).2
      · rintro rfl
        simpa using hstart h
    simp at hc
    simp [he, isBlankToken, isRawBlank, hc, hspace]
  · rw [he, isBlankToken_escaped, hraw]

theorem isBlankToken_of_raw (inKey atStart : Bool) (h : isRawBlank c = true) :
    isBlankToken (escapeChar inKey atStart c) = true := by
  rcases escapeChar_cases inKey atStart c with ⟨he, -⟩ | ⟨x, -, -, hraw, -⟩
  · simp only [isRawBlank, Bool.and_eq_true] at h
    simp [he, isBlankToken, h.1]
  · simp [h] at hraw

def escapeTokens (inKey : Bool) : Text → List Text
  | [] => []
  | c :: rest => escapeChar inKey true c :: rest.map (escapeChar inKey false)

theorem escape_eq_flatten (inKey : Bool) (t : Text) : escape inKey t = (escapeTokens inKey t).flatten := by
  cases t with
  | nil => rfl
  | cons c rest => simp [escape, escapeTokens, List.flatMap_def]

theorem mem_escapeTokens (h : u ∈ escapeTokens inKey t) : ∃ atStart c, u = escapeChar inKey atStart c := by
  cases t with
  | nil => cases h
  | cons c rest =>
    rcases List.mem_cons.mp h with rfl | h
    · exact ⟨true, c, rfl⟩
    · obtain ⟨c, -, rfl⟩ := List.mem_map.mp h
      exact ⟨false, c, rfl⟩

theorem isToken_of_mem (h : u ∈ escapeTokens inKey t) : IsToken u := by
  obtain ⟨atStart, c, rfl⟩ := mem_escapeTokens h
  exact isToken_escapeChar inKey atStart c

theorem not_separator_of_mem (h : u ∈ escapeTokens true t) : ∀ c, u = [c] → isSeparator c = false := by
  rintro c rfl
  obtain ⟨atStart, d, hd⟩ := mem_escapeTokens h
  rcases escapeChar_cases true atStart d with ⟨he, -, hsep, -⟩ | ⟨x, he, -⟩
  · obtain rfl : c = d := by simpa [he] using hd
    exact (hsep rfl).1
  · simp [he] at hd

theorem unescape_escapeTokens (inKey : Bool) (t : Text) : (escapeTokens inKey t).flatMap unescape = t := by
  cases t with
  | nil => rfl
  | cons c rest =>
    simp [escapeTokens, unescape_escapeChar, List.flatMap_map]

theorem dropWhile_escapeTokens (h : ∀ c ∈ t.head?, isRawBlank c = false) :
    (escapeTokens inKey t).dropWhile isBlankToken = escapeTokens inKey t := by
  cases t with
  | nil => rfl
  | cons c rest => simp [escapeTokens, isBlankToken_escapeChar, h c rfl]

theorem rdropWhile_escapeTokens (h : ∀ c ∈ t.getLast?, isRawBlank c = false) :
    (escapeTokens true t).rdropWhile isBlankToken = escapeTokens true t := by
  obtain rfl | ⟨front, c, rfl⟩ := List.eq_nil_or_concat' t
  · rfl
  obtain ⟨before, atStart, hlast⟩ : ∃ before atStart,
      escapeTokens true (front ++ [c]) = before ++ [escapeChar true atStart c] := by
    cases front with
    | nil => exact ⟨[], true, rfl⟩
    | cons d front =>
      exact ⟨escapeChar true true d :: front.map (escapeChar true false), false, by simp [escapeTokens]⟩
  rw [hlast, List.rdropWhile_concat_neg]
  simp [isBlankToken_escapeChar, h c (by simp)]

-- ---------------------------------------------------------------------------
-- One line
-- ---------------------------------------------------------------------------

/-- What an entry has to be like to be read back. -/
structure Survives (entry : Text × Text) : Prop where
  keyFront : ∀ c ∈ entry.1.head?, isRawBlank c = false
  keyBack : ∀ c ∈ entry.1.getLast?, isRawBlank c = false
  valueFront : ∀ c ∈ entry.2.head?, isRawBlank c = false

def keyTokens (key : Text) : List Text := (escapeTokens true key).dropWhile isBlankToken

def valueTokens (value : Text) : List Text := (escapeTokens false value).dropWhile isBlankToken

theorem mem_escapeTokens_of_keyTokens (h : u ∈ keyTokens key) : u ∈ escapeTokens true key :=
  (List.dropWhile_sublist _).mem h

theorem mem_escapeTokens_of_valueTokens (h : u ∈ valueTokens value) : u ∈ escapeTokens false value :=
  (List.dropWhile_sublist _).mem h

theorem trimStart_renderEntry (key value : Text) : Text.trimStart (renderEntry (key, value)) =
    (keyTokens key).flatten ++ '=' :: (escapeTokens false value).flatten := by
  have htokens : ∀ u ∈ escapeTokens true key ++ ['='] :: escapeTokens false value, IsToken u := by
    intro u hu
    rcases List.mem_append.mp hu with hu | hu
    · exact isToken_of_mem hu
    · rcases List.mem_cons.mp hu with rfl | hu
      · exact .plain (by decide)
      · exact isToken_of_mem hu
  have hline : renderEntry (key, value) =
      (escapeTokens true key ++ ['='] :: escapeTokens false value).flatten := by
    simp [renderEntry, escape_eq_flatten]
  rw [hline, trimStart_flatten htokens, List.dropWhile_append]
  have hsep : (['='] :: escapeTokens false value).dropWhile isBlankToken =
      ['='] :: escapeTokens false value := rfl
  rw [hsep]
  split
  · rename_i hempty
    simp [keyTokens, List.isEmpty_iff.mp hempty]
  · simp [keyTokens]

theorem entry?_renderEntry (key value : Text) : entry? (renderEntry (key, value)) =
    if isComment ((keyTokens key).flatten ++ '=' :: (escapeTokens false value).flatten) then none
    else some (((keyTokens key).rdropWhile isBlankToken).flatMap unescape,
      (valueTokens value).flatMap unescape) := by
  have hkey : ∀ u ∈ keyTokens key, IsToken u := fun u hu =>
    isToken_of_mem (mem_escapeTokens_of_keyTokens hu)
  have hcut : ∀ u ∈ keyTokens key, IsToken u ∧ ∀ c, u = [c] → isSeparator c = false := fun u hu =>
    ⟨hkey u hu, not_separator_of_mem (mem_escapeTokens_of_keyTokens hu)⟩
  have htrimmed : ∀ u ∈ (keyTokens key).rdropWhile isBlankToken, IsToken u := fun u hu =>
    hkey u ((List.rdropWhile_prefix _ _).subset hu)
  have hvalue : ∀ u ∈ valueTokens value, IsToken u := fun u hu =>
    isToken_of_mem (mem_escapeTokens_of_valueTokens hu)
  have hescaped : ∀ u ∈ escapeTokens false value, IsToken u := fun u hu => isToken_of_mem hu
  unfold entry?
  simp only [trimStart_renderEntry, cutEntry_flatten hcut, trimKey_flatten hkey, unescape_flatten htrimmed,
    trimStart_flatten hescaped]
  rw [← valueTokens, unescape_flatten hvalue]
  simp

theorem entry?_of_survives (h : Survives entry) : entry? (renderEntry entry) = some entry := by
  obtain ⟨key, value⟩ := entry
  have hkey : keyTokens key = escapeTokens true key := dropWhile_escapeTokens h.keyFront
  have hvalue : valueTokens value = escapeTokens false value := dropWhile_escapeTokens h.valueFront
  have hcomment : isComment ((escapeTokens true key).flatten ++ '=' :: (escapeTokens false value).flatten) =
      false := by
    cases key with
    | nil => rfl
    | cons c rest =>
      rcases escapeChar_cases true true c with ⟨he, -, -, hmark⟩ | ⟨x, he, -⟩
      · have hc := hmark rfl
        simp at hc
        simp [escapeTokens, he, isComment, hc]
      · simp [escapeTokens, he, isComment]
  rw [entry?_renderEntry, hkey, hvalue, hcomment, rdropWhile_escapeTokens h.keyBack, unescape_escapeTokens,
    unescape_escapeTokens]
  simp

theorem head_flatMap_unescape (h : ∀ u ∈ ts, ∃ atStart c, u = escapeChar inKey atStart c)
    (hc : c ∈ (ts.flatMap unescape).head?) : ∃ atStart, escapeChar inKey atStart c ∈ ts.head? := by
  cases ts with
  | nil => cases hc
  | cons u ts =>
    obtain ⟨atStart, d, rfl⟩ := h u List.mem_cons_self
    obtain rfl : d = c := by simpa [unescape_escapeChar] using hc
    exact ⟨atStart, rfl⟩

theorem getLast_flatMap_unescape (h : ∀ u ∈ ts, ∃ atStart c, u = escapeChar inKey atStart c)
    (hc : c ∈ (ts.flatMap unescape).getLast?) : ∃ atStart, escapeChar inKey atStart c ∈ ts.getLast? := by
  obtain rfl | ⟨front, u, rfl⟩ := List.eq_nil_or_concat' ts
  · cases hc
  · obtain ⟨atStart, d, rfl⟩ := h u (by simp)
    obtain rfl : d = c := by simpa [unescape_escapeChar] using hc
    exact ⟨atStart, by simp⟩

/-- Whatever was written, no raw blank is read at the ends of a key or at the start of a value. -/
theorem survives_of_entry? {written : Text × Text} (h : entry? (renderEntry written) = some entry) :
    Survives entry := by
  obtain ⟨key, value⟩ := written
  rw [entry?_renderEntry] at h
  split at h
  · cases h
  obtain rfl := Option.some.inj h
  have hkey : ∀ u ∈ (keyTokens key).rdropWhile isBlankToken, ∃ atStart c, u = escapeChar true atStart c :=
    fun u hu => mem_escapeTokens (mem_escapeTokens_of_keyTokens ((List.rdropWhile_prefix _ _).subset hu))
  have hvalue : ∀ u ∈ valueTokens value, ∃ atStart c, u = escapeChar false atStart c :=
    fun u hu => mem_escapeTokens (mem_escapeTokens_of_valueTokens hu)
  -- A raw blank is a blank token, and trimming leaves none there.
  have hfirst {us : List Text} {u : Text} (hu : u ∈ (us.dropWhile isBlankToken).head?) :
      isBlankToken u = false := by
    have hnot := List.head?_dropWhile_not isBlankToken us
    rw [Option.mem_def.mp hu] at hnot
    exact hnot
  refine ⟨fun c hc => ?_, fun c hc => ?_, fun c hc => ?_⟩
  · obtain ⟨atStart, hu⟩ := head_flatMap_unescape hkey hc
    obtain ⟨back, hback⟩ := List.rdropWhile_prefix isBlankToken (keyTokens key)
    have hhead : escapeChar true atStart c ∈ (keyTokens key).head? := by
      rw [← hback, List.head?_append, Option.mem_def.mp hu]
      rfl
    rw [← isBlankToken_escapeChar (.inl rfl), hfirst hhead]
  · obtain ⟨atStart, hu⟩ := getLast_flatMap_unescape hkey hc
    obtain ⟨hne, hlast⟩ := List.mem_getLast?_eq_getLast hu
    have hnot := List.rdropWhile_last_not isBlankToken (keyTokens key) hne
    rw [← hlast, isBlankToken_escapeChar (.inl rfl)] at hnot
    simpa using hnot
  · obtain ⟨atStart, hu⟩ := head_flatMap_unescape hvalue hc
    have hnot := hfirst hu
    by_contra hraw
    rw [isBlankToken_of_raw false atStart (by simpa using hraw)] at hnot
    cases hnot

-- ---------------------------------------------------------------------------
-- The whole text
-- ---------------------------------------------------------------------------

theorem not_lineEnd_of_mem_renderEntry (h : c ∈ renderEntry entry) : c ≠ '\n' ∧ c ≠ '\r' := by
  have htokens {inKey t} (hc : c ∈ escape inKey t) : c ≠ '\n' ∧ c ≠ '\r' := by
    rw [escape_eq_flatten] at hc
    obtain ⟨u, hu, hc⟩ := List.mem_flatten.mp hc
    obtain ⟨atStart, d, rfl⟩ := mem_escapeTokens hu
    exact not_lineEnd_of_mem_escapeChar hc
  rcases List.mem_append.mp h with h | h
  · exact htokens h
  · rcases List.mem_cons.mp h with rfl | h
    · decide
    · exact htokens h

theorem stripReturn_of_not_mem (h : '\r' ∉ t) : stripReturn t = t := by
  rw [stripReturn, if_neg fun hlast => h (List.mem_of_getLast? hlast)]

theorem pieces_entries (entries : List (Text × Text)) :
    Text.pieces '\n' (entries.flatMap fun entry => renderEntry entry ++ ['\n']) =
      entries.map renderEntry ++ [[]] := by
  induction entries with
  | nil => rfl
  | cons entry entries ih =>
    have hfeed : '\n' ∉ renderEntry entry := fun h => (not_lineEnd_of_mem_renderEntry h).1 rfl
    rw [List.flatMap_cons, List.append_assoc, List.singleton_append, Text.pieces_append,
      Text.pieces_of_not_mem hfeed, ih]
    rfl

theorem lines_render (s : Settings) : lines s.render = header :: s.entries.map renderEntry := by
  have hpieces : Text.pieces '\n' s.render = (header :: s.entries.map renderEntry) ++ [[]] := by
    rw [render, Text.pieces_append, pieces_entries, Text.pieces_of_not_mem (by decide)]
    rfl
  have hstrip : ∀ line ∈ header :: s.entries.map renderEntry, stripReturn line = line := by
    intro line hline
    rcases List.mem_cons.mp hline with rfl | hline
    · exact stripReturn_of_not_mem (by decide)
    · obtain ⟨entry, -, rfl⟩ := List.mem_map.mp hline
      exact stripReturn_of_not_mem fun h => (not_lineEnd_of_mem_renderEntry h).2 rfl
  unfold lines
  simp only [hpieces, List.dropLast_concat, List.getLast?_concat, if_true, List.append_nil]
  exact (List.map_congr_left hstrip).trans (List.map_id _)

theorem parse_render (s : Settings) :
    parse s.render = ofList (s.entries.filterMap fun entry => entry? (renderEntry entry)) := by
  have hheader : entry? header = none := by decide
  rw [parse, lines_render, List.filterMap_cons_none hheader, List.filterMap_map]
  rfl

theorem ofList_concat (entries : List (Text × Text)) (entry : Text × Text) :
    ofList (entries ++ [entry]) = (ofList entries).insert entry.1 entry.2 := by
  simp [ofList]

theorem mem_ofList (h : entry ∈ (ofList entries).entries) : entry ∈ entries := by
  induction entries using List.reverseRecOn with
  | nil => cases h
  | append_singleton entries last ih =>
    rw [ofList_concat] at h
    rcases mem_insertSorted h with rfl | h
    · simp
    · exact List.mem_append_left _ (ih h)

theorem get?_ofList (h : entries.Pairwise fun a b => a.1 < b.1) (key : Text) :
    (ofList entries).get? key = Table.get? entries key := by
  induction entries using List.reverseRecOn with
  | nil => rfl
  | append_singleton entries last ih =>
    obtain ⟨hentries, -, hlast⟩ := List.pairwise_append.mp h
    rw [ofList_concat, get?_insert, ih hentries, Table.get?_append, Table.get?_cons]
    split
    · rename_i hkey
      have hnew : Table.get? entries key = none := by
        rw [← Option.not_isSome_iff_eq_none, ← Table.mem_keys_iff]
        intro hmem
        obtain ⟨entry, hentry, rfl⟩ := List.mem_map.mp hmem
        exact List.lt_irrefl _ (hkey ▸ hlast entry hentry last (by simp))
      rw [hnew]
      rfl
    · exact (Option.or_none).symm

theorem ofList_entries (s : Settings) : ofList s.entries = s :=
  ext_get? (get?_ofList s.sorted)

theorem parse_render_of_survives {s : Settings} (h : ∀ entry ∈ s.entries, Survives entry) :
    parse s.render = s := by
  have hall : s.entries.filterMap (fun entry => entry? (renderEntry entry)) = s.entries :=
    (List.filterMap_congr fun entry hentry => entry?_of_survives (h entry hentry)).trans List.filterMap_some
  rw [parse_render, hall, ofList_entries]

/-- Settings are read back as they were written exactly if no key begins or ends with, and no value begins
with, a blank that is written as it is. Elsewhere such blanks do no harm. -/
theorem parse_render_eq_iff (s : Settings) :
    parse s.render = s ↔ ∀ entry ∈ s.entries, Survives entry := by
  rw [parse_render]
  constructor
  · intro h entry hentry
    rw [← h] at hentry
    obtain ⟨written, -, hread⟩ := List.mem_filterMap.mp (mem_ofList hentry)
    exact survives_of_entry? hread
  · intro h
    have hall : s.entries.filterMap (fun entry => entry? (renderEntry entry)) = s.entries :=
      (List.filterMap_congr fun entry hentry => entry?_of_survives (h entry hentry)).trans
        (List.filterMap_some)
    rw [hall, ofList_entries]

end Settings

end SafeFiles
