import SafeFiles.Proofs.SettingsLaws

/-!
# Settings text read in one pass

The format of settings, said without a second look at any character: a text is a row
of lines and a line a row of tokens, where a backslash takes the character behind it
into its token. Blanks, comment marks and separators count only as plain tokens.
`parse` looks at a line several times, forward and backward, and reads just that
(`parse_scan`). No token and no comment reaches past the end of its line, so a text
that is written below another one overrides it (`parse_below`).
-/

namespace SafeFiles

namespace Settings

-- ---------------------------------------------------------------------------
-- The format
-- ---------------------------------------------------------------------------

/-- A line feed ends a line, together with a carriage return directly before it. -/
def splitLines : Text → List Text
  | [] => [[]]
  | '\r' :: '\n' :: rest => [] :: splitLines rest
  | '\n' :: rest => [] :: splitLines rest
  | c :: rest => (splitLines rest).modifyHead (c :: ·)

inductive Token
  | plain (c : Char)
  | escaped (c : Char)
  /-- A backslash at the end of a line. -/
  | lone

def tokens : Text → List Token
  | [] => []
  | ['\\'] => [.lone]
  | '\\' :: c :: rest => .escaped c :: tokens rest
  | c :: rest => .plain c :: tokens rest

namespace Token

def isBlank : Token → Bool
  | plain c => SafeFiles.isBlank c
  | _ => false

def isMark : Token → Bool
  | plain '#' => true
  | plain '!' => true
  | _ => false

def isSeparator : Token → Bool
  | plain '=' => true
  | plain ':' => true
  | _ => false

def decode : Token → Text
  | plain c => [c]
  | escaped 'n' => ['\n']
  | escaped 't' => ['\t']
  | escaped 'r' => ['\r']
  | escaped c => [c]
  | lone => []

def text : Token → Text
  | plain c => [c]
  | escaped c => ['\\', c]
  | lone => ['\\']

end Token

/-- The entry that a line spells, if it is neither blank nor a comment. -/
def spelled? (line : List Token) : Option (Text × Text) :=
  match line.dropWhile Token.isBlank with
  | [] => none
  | first :: rest =>
    if first.isMark then none
    else
      let key := (first :: rest).takeWhile (!·.isSeparator)
      let value := ((first :: rest).dropWhile (!·.isSeparator)).tail
      some ((key.rdropWhile Token.isBlank).flatMap Token.decode,
        (value.dropWhile Token.isBlank).flatMap Token.decode)

/-- The entries of a text, in the order of their lines. -/
def scan (t : Text) : List (Text × Text) :=
  (splitLines t).filterMap fun line => spelled? (tokens line)

variable {c : Char} {t a b line : Text} {ts : List Token}

-- ---------------------------------------------------------------------------
-- Lines
-- ---------------------------------------------------------------------------

theorem splitLines_ne_nil (t : Text) : splitLines t ≠ [] := by
  fun_induction splitLines t with
  | case1 | case2 | case3 => simp
  | case4 c rest hreturn hfeed ih => simpa using ih

theorem stripReturn_cons (h : line = [] → c ≠ '\r') : stripReturn (c :: line) = c :: stripReturn line := by
  cases line with
  | nil => simp [stripReturn, h rfl]
  | cons d rest =>
    simp only [stripReturn, List.getLast?_cons_cons, List.dropLast_cons_cons]
    split <;> rfl

/-- What stands before a line feed is stripped, what stands behind the last one is not. -/
theorem splitLines_eq (t : Text) : splitLines t =
    (Text.pieces '\n' t).dropLast.map stripReturn ++ (Text.pieces '\n' t).getLast?.toList := by
  fun_induction splitLines t with
  | case1 => rfl
  | case2 rest ih | case3 rest ih =>
    obtain ⟨first, others, hp⟩ := List.exists_cons_of_ne_nil (Text.pieces_ne_nil '\n' rest)
    simp [Text.pieces, ih, hp, stripReturn]
  | case4 c rest hreturn hfeed ih =>
    replace hfeed : c ≠ '\n' := hfeed
    obtain ⟨first, others, hp⟩ := List.exists_cons_of_ne_nil (Text.pieces_ne_nil '\n' rest)
    cases others with
    | nil => simp [Text.pieces, ih, hp, hfeed]
    | cons second others =>
      -- If `c` is all that its line holds, a line feed comes next, and `c` is no carriage return.
      have hstrip : stripReturn (c :: first) = c :: stripReturn first := by
        apply stripReturn_cons
        rintro rfl rfl
        have hrest := Text.joinWith_pieces '\n' rest
        rw [hp] at hrest
        exact hreturn _ rfl hrest.symm
      simp [Text.pieces, ih, hp, hfeed, hstrip]

/-- The reader leaves out a last line that holds nothing, which spells no entry. -/
theorem filterMap_lines (t : Text) : (lines t).filterMap entry? = (splitLines t).filterMap entry? := by
  have hempty : entry? [] = none := rfl
  rw [splitLines_eq, lines, List.filterMap_append, List.filterMap_append]
  split
  · rename_i hlast
    rw [hlast]
    simp [hempty]
  · rfl

theorem getLast?_ne_of_cons {d : Char} (h : (c :: t).getLast? ≠ some d) : t.getLast? ≠ some d := by
  cases t with
  | nil => simp
  | cons e t => simpa using h

theorem splitLines_append (h : a.getLast? ≠ some '\r') (b : Text) :
    splitLines (a ++ '\n' :: b) = splitLines a ++ splitLines b := by
  fun_induction splitLines a with
  | case1 => rfl
  | case2 rest ih => simp [splitLines, ih (getLast?_ne_of_cons (getLast?_ne_of_cons h))]
  | case3 rest ih => simp [splitLines, ih (getLast?_ne_of_cons h)]
  | case4 c rest hreturn hfeed ih =>
    have hapart : ∀ behind, c = '\r' → rest ++ '\n' :: b = '\n' :: behind → False := by
      rintro behind rfl hbehind
      cases rest with
      | nil => exact h rfl
      | cons d rest =>
        obtain rfl : d = '\n' := (List.cons.inj hbehind).1
        exact hreturn rest rfl rfl
    obtain ⟨first, others, hs⟩ := List.exists_cons_of_ne_nil (splitLines_ne_nil rest)
    rw [List.cons_append, splitLines.eq_4 c _ hapart hfeed, ih (getLast?_ne_of_cons h), hs]
    rfl

-- ---------------------------------------------------------------------------
-- Tokens
-- ---------------------------------------------------------------------------

theorem tokens_plain (hc : c ≠ '\\') (t : Text) : tokens (c :: t) = .plain c :: tokens t :=
  tokens.eq_4 c t (fun h => absurd h hc) (fun _ _ h => absurd h hc)

@[elab_as_elim]
theorem token_induction {motive : Text → Prop} (nil : motive []) (lone : motive ['\\'])
    (escaped : ∀ c rest, motive rest → motive ('\\' :: c :: rest))
    (plain : ∀ c rest, c ≠ '\\' → motive rest → motive (c :: rest)) (t : Text) : motive t := by
  fun_induction tokens t with
  | case1 => exact nil
  | case2 => exact lone
  | case3 c rest ih => exact escaped c rest ih
  | case4 c rest hlone hescaped ih =>
    refine plain c rest ?_ ih
    rintro rfl
    cases rest with
    | nil => exact hlone rfl rfl
    | cons d rest => exact hescaped d rest rfl rfl

theorem isSeparator_plain (c : Char) : Token.isSeparator (.plain c) = isSeparator c := by
  unfold Token.isSeparator isSeparator
  split
  all_goals simp_all

theorem isMark_plain (c : Char) : Token.isMark (.plain c) = (c = '#' || c = '!') := by
  unfold Token.isMark
  split
  all_goals simp_all

theorem decode_escaped (c : Char) : Token.decode (.escaped c) = [unescapeChar c] := by
  unfold Token.decode unescapeChar
  split <;> simp_all

theorem tokens_trimStart (t : Text) : tokens (Text.trimStart t) = (tokens t).dropWhile Token.isBlank := by
  unfold Text.trimStart
  induction t using token_induction with
  | nil | lone | escaped c rest ih => rfl
  | plain c rest hc ih =>
    cases hb : isBlank c with
    | true => simp [tokens_plain hc, Token.isBlank, hb, ih]
    | false => simp [tokens_plain hc, Token.isBlank, hb]

theorem tokens_cutEntry (t : Text) :
    tokens (cutEntry t).1 = (tokens t).takeWhile (!·.isSeparator) ∧
      tokens (cutEntry t).2 = ((tokens t).dropWhile (!·.isSeparator)).tail := by
  induction t using token_induction with
  | nil | lone => exact ⟨rfl, rfl⟩
  | escaped c rest ih => simpa [cutEntry, tokens, Token.isSeparator] using ih
  | plain c rest hc ih =>
    rw [cutEntry.eq_4 _ _ (by simp [hc]) (by simp [hc])]
    cases hs : isSeparator c with
    | true => simp [tokens_plain hc, isSeparator_plain, hs, tokens]
    | false => simpa [tokens_plain hc, isSeparator_plain, hs] using ih

theorem unescape_eq_decode (t : Text) : unescape t = (tokens t).flatMap Token.decode := by
  induction t using token_induction with
  | nil | lone => rfl
  | escaped c rest ih => simp [unescape, tokens, decode_escaped, ih]
  | plain c rest hc ih => simp [unescape, tokens_plain hc, Token.decode, ih, hc]

-- ---------------------------------------------------------------------------
-- The end of a key
-- ---------------------------------------------------------------------------

theorem isBlankToken_text (u : Token) : isBlankToken u.text = u.isBlank := by
  cases u with
  | plain c => simp [isBlankToken, Token.text, Token.isBlank]
  | escaped c | lone => rfl

theorem tokens_text (h : ∀ u ∈ ts, IsToken u.text) : tokens (ts.map Token.text).flatten = ts := by
  induction ts with
  | nil => rfl
  | cons u ts ih =>
    have hrest := ih fun v hv => h v (List.mem_cons_of_mem u hv)
    have hu := h u List.mem_cons_self
    cases u with
    | plain c =>
      cases hu with
      | plain hc => simp [Token.text, tokens_plain hc, hrest]
    | escaped c => simp [Token.text, tokens, hrest]
    | lone =>
      cases hu with
      | plain hc => exact absurd rfl hc

theorem exists_whole (t : Text) : ∃ ts, (∀ u ∈ ts, IsToken u.text) ∧
    (t = (ts.map Token.text).flatten ∧ tokens t = ts ∨
      t = (ts.map Token.text).flatten ++ ['\\'] ∧ tokens t = ts ++ [.lone]) := by
  induction t using token_induction with
  | nil => exact ⟨[], by simp, .inl ⟨rfl, rfl⟩⟩
  | lone => exact ⟨[], by simp, .inr ⟨rfl, rfl⟩⟩
  | escaped c rest ih =>
    obtain ⟨ts, hts, h⟩ := ih
    refine ⟨.escaped c :: ts, List.forall_mem_cons.mpr ⟨.escaped c, hts⟩, ?_⟩
    simpa [Token.text, tokens] using h
  | plain c rest hc ih =>
    obtain ⟨ts, hts, h⟩ := ih
    refine ⟨.plain c :: ts, List.forall_mem_cons.mpr ⟨.plain hc, hts⟩, ?_⟩
    simpa [Token.text, tokens_plain hc] using h

theorem rdropWhile_text (ts : List Token) :
    (ts.map Token.text).rdropWhile isBlankToken = (ts.rdropWhile Token.isBlank).map Token.text := by
  induction ts using List.reverseRecOn with
  | nil => rfl
  | append_singleton ts u ih =>
    rw [List.map_append, List.map_singleton, List.rdropWhile_concat, List.rdropWhile_concat,
      isBlankToken_text, ih]
    split <;> simp

/-- Counting backslashes backward finds the blanks that are tokens of their own. -/
theorem tokens_trimKey (t : Text) : tokens (trimKey t) = (tokens t).rdropWhile Token.isBlank := by
  obtain ⟨ts, hts, ⟨rfl, htokens⟩ | ⟨rfl, htokens⟩⟩ := exists_whole t
  · have hrow : ∀ u ∈ ts.map Token.text, IsToken u := by
      intro u hu
      obtain ⟨v, hv, rfl⟩ := List.mem_map.mp hu
      exact hts v hv
    rw [htokens, trimKey_flatten hrow, rdropWhile_text, tokens_text]
    intro u hu
    exact hts u ((List.rdropWhile_prefix _ _).subset hu)
  · have hkept : trimKey ((ts.map Token.text).flatten ++ ['\\']) = (ts.map Token.text).flatten ++ ['\\'] := by
      simp [trimKey, dropBlanks, show isBlank '\\' = false from rfl]
    rw [hkept, htokens, List.rdropWhile_concat_neg _ _ _ (by simp [Token.isBlank])]

-- ---------------------------------------------------------------------------
-- The whole text
-- ---------------------------------------------------------------------------

theorem tokens_eq_nil_iff : tokens t = [] ↔ t = [] := by
  induction t using token_induction with
  | nil | lone | escaped c rest ih => simp [tokens]
  | plain c rest hc ih => simp [tokens_plain hc]

theorem isComment_eq {first : Token} (h : tokens t = first :: ts) : isComment t = first.isMark := by
  induction t using token_induction with
  | nil => cases h
  | lone | escaped c rest ih =>
    obtain ⟨rfl, -⟩ := List.cons.inj h
    rfl
  | plain c rest hc ih =>
    rw [tokens_plain hc] at h
    obtain ⟨rfl, -⟩ := List.cons.inj h
    simp [isComment, isMark_plain]

theorem entry?_eq_spelled? (line : Text) : entry? line = spelled? (tokens line) := by
  unfold entry? spelled?
  rw [← tokens_trimStart]
  generalize Text.trimStart line = t
  obtain ⟨hkey, hvalue⟩ := tokens_cutEntry t
  cases h : tokens t with
  | nil => simp [tokens_eq_nil_iff.mp h]
  | cons first rest =>
    have hne : t ≠ [] := fun ht => by simp [tokens_eq_nil_iff.mpr ht] at h
    simp [hne, isComment_eq h, unescape_eq_decode, tokens_trimKey, tokens_trimStart, hkey, hvalue, h]

theorem parse_eq_ofList (t : Text) : parse t = ofList (scan t) := by
  have hentry : entry? = fun line => spelled? (tokens line) := funext entry?_eq_spelled?
  rw [parse, filterMap_lines, hentry]
  rfl

theorem get?_ofList_reverse (entries : List (Text × Text)) (key : Text) :
    (ofList entries).get? key = Table.get? entries.reverse key := by
  induction entries using List.reverseRecOn with
  | nil => rfl
  | append_singleton entries last ih =>
    rw [ofList_concat, get?_insert, ih, List.reverse_concat, Table.get?_cons]

/-- The several scans of the reader come to the one pass, and of lines with the same key the last one counts. -/
theorem parse_scan (t : Text) :
    parse t = ofList (scan t) ∧ ∀ key, (parse t).get? key = Table.get? (scan t).reverse key := by
  refine ⟨parse_eq_ofList t, fun key => ?_⟩
  rw [parse_eq_ofList, get?_ofList_reverse]

-- The blank behind an escaped backslash is trimmed, the escaped blank stays.
example : scan "a\\\\ =\\ \\\r\n#b\rc".toList = [(['a', '\\'], [' '])] := by decide

theorem scan_append (h : a.getLast? ≠ some '\r') (b : Text) : scan (a ++ '\n' :: b) = scan a ++ scan b := by
  rw [scan, splitLines_append h, List.filterMap_append]
  rfl

/-- What is written below counts, and above it what has no key there. A carriage return at the end of `a` would
belong to the line end. -/
theorem parse_below (h : a.getLast? ≠ some '\r') (b key : Text) :
    (parse (a ++ '\n' :: b)).get? key = ((parse b).get? key).or ((parse a).get? key) := by
  simp only [parse_eq_ofList, get?_ofList_reverse, scan_append h, List.reverse_append, Table.get?_append]

/-- A backslash at the end of a text does not take the line feed behind it. -/
theorem below_backslash :
    "j=0\nk=1\\".toList.getLast? ≠ some '\r' ∧
      (parse ("j=0\nk=1\\".toList ++ '\n' :: "k=2".toList)).get? ['k'] = some ['2'] ∧
      (parse ("j=0\nk=1\\".toList ++ '\n' :: "k=2".toList)).get? ['j'] = some ['0'] :=
  have hopen : "j=0\nk=1\\".toList.getLast? ≠ some '\r' := by decide
  ⟨hopen, (parse_below hopen _ _).trans (by decide), (parse_below hopen _ _).trans (by decide)⟩

end Settings

end SafeFiles
