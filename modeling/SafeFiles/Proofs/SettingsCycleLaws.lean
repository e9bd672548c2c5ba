import Mathlib.Logic.Function.Iterate
import SafeFiles.Proofs.SettingsLaws

/-!
# Settings written again and again

Writing loses nothing. Below the header each entry has a line of its own, and who reads
that line without trimming it finds the entry as it was, so no two settings are written
alike (`render_lists`). Reading trims, and what it leaves cannot be trimmed again: the
settings that come out of written text are those that survive (`exists_parse_render_iff`),
and after one cycle nothing changes any more (`parse_render_settles`).
-/

namespace SafeFiles

namespace Settings

variable {r : Settings}

-- ---------------------------------------------------------------------------
-- Written lines
-- ---------------------------------------------------------------------------

def exactEntry (line : Text) : Text × Text :=
  (unescape (cutEntry line).1, unescape (cutEntry line).2)

theorem unescape_escape (inKey : Bool) (t : Text) : unescape (escape inKey t) = t := by
  have htokens : ∀ u ∈ escapeTokens inKey t, IsToken u := fun u hu => isToken_of_mem hu
  rw [escape_eq_flatten, unescape_flatten htokens, unescape_escapeTokens]

theorem cutEntry_renderEntry (entry : Text × Text) :
    cutEntry (renderEntry entry) = (escape true entry.1, escape false entry.2) := by
  have hkey : ∀ u ∈ escapeTokens true entry.1, IsToken u ∧ ∀ c, u = [c] → isSeparator c = false :=
    fun u hu => ⟨isToken_of_mem hu, not_separator_of_mem hu⟩
  rw [renderEntry, escape_eq_flatten true, cutEntry_flatten hkey]

theorem exactEntry_renderEntry (entry : Text × Text) : exactEntry (renderEntry entry) = entry := by
  rw [exactEntry, cutEntry_renderEntry, unescape_escape, unescape_escape]

theorem map_exactEntry (entries : List (Text × Text)) :
    (entries.map renderEntry).map exactEntry = entries := by
  simp [Function.comp_def, exactEntry_renderEntry]

theorem render_injective : Function.Injective render := by
  intro s s' h
  have hlines := congrArg lines h
  rw [lines_render, lines_render] at hlines
  have hrows : s.entries.map renderEntry = s'.entries.map renderEntry := (List.cons.inj hlines).2
  have hentries : s.entries = s'.entries := by
    rw [← map_exactEntry s.entries, hrows, map_exactEntry]
  exact ext_get? fun key => congrArg (Table.get? · key) hentries

/-- No two settings are written alike: the rows below the header are the entries in the order of their keys. -/
theorem render_lists (s s' : Settings) :
    (s.render = s'.render ↔ s = s') ∧
      ∃ rows, s.render = (header :: rows).flatMap (· ++ ['\n']) ∧ lines s.render = header :: rows ∧
        rows.map exactEntry = s.entries ∧ (rows.map fun row => (exactEntry row).1).Pairwise (· < ·) := by
  refine ⟨render_injective.eq_iff, s.entries.map renderEntry, ?_, lines_render s, map_exactEntry s.entries, ?_⟩
  · simp [render, List.flatMap_map]
  · have hkeys : ((s.entries.map renderEntry).map fun row => (exactEntry row).1) = s.entries.map Prod.fst := by
      simp [exactEntry_renderEntry]
    rw [hkeys]
    exact List.pairwise_map.mpr s.sorted

-- ---------------------------------------------------------------------------
-- Cycles
-- ---------------------------------------------------------------------------

/-- What can come out of written text. -/
theorem exists_parse_render_iff :
    (∃ s : Settings, parse s.render = r) ↔ ∀ entry ∈ r.entries, Survives entry := by
  constructor
  · rintro ⟨s, rfl⟩ entry hentry
    rw [parse_render] at hentry
    obtain ⟨written, -, hread⟩ := List.mem_filterMap.mp (mem_ofList hentry)
    exact survives_of_entry? hread
  · intro h
    exact ⟨r, parse_render_of_survives h⟩

/-- What the first cycle leaves stays, however many cycles follow. -/
theorem parse_render_settles (s : Settings) (n : Nat) :
    parse (parse s.render).render = parse s.render ∧
      (fun s => parse s.render)^[n + 1] s = parse s.render := by
  have hsettled : parse (parse s.render).render = parse s.render :=
    parse_render_of_survives (exists_parse_render_iff.mp ⟨s, rfl⟩)
  refine ⟨hsettled, ?_⟩
  rw [Function.iterate_succ_apply]
  exact Function.iterate_fixed (f := fun s => parse s.render) hsettled n

-- Without the no-break space before it, a key is the same as another, and its value comes later.
example : parse (ofList [(['k'], ['1']), (['\u00a0', 'k'], ['2'])]).render = ofList [(['k'], ['2'])] := by
  decide

end Settings

end SafeFiles
