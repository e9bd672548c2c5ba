import SafeFiles.Disk.Calls
import SafeFiles.Proofs.Disk.RouteLaws

/-!
# Entries that paths name

What a call acts on is the entry under the last name of its path. Each lemma
reads the success of one call as the route that it took and the entry that it
found there, so the laws of routes say how a later call with the same path acts
on a disk that has changed in between.
-/

namespace SafeFiles

theorem bind_eq_ok {ε α β : Type} {x : Except ε α} {f : α → Except ε β} {b : β} :
    x >>= f = .ok b ↔ ∃ a, x = .ok a ∧ f a = .ok b := by
  cases x <;> simp [bind, Except.bind]

theorem mapError_ok_iff {ε δ α : Type} {f : ε → δ} {x : Except ε α} {a : α} :
    x.mapError f = .ok a ↔ x = .ok a := by
  cases x <;> simp [Except.mapError]

theorem map_eq_ok {ε α β : Type} {x : Except ε α} {f : α → β} {b : β} :
    x.map f = .ok b ↔ ∃ a, x = .ok a ∧ f a = b := by
  cases x <;> simp [Except.map]

-- ---------------------------------------------------------------------------
-- The steps of a path
-- ---------------------------------------------------------------------------

namespace Path

variable {p : Path}

def bare (p : Path) : List Step := (Text.pieces '/' p).filterMap Step.ofPiece?

theorem steps_eq (p : Path) : p.steps = p.bare ∨ p.steps = p.bare ++ [.slash] := by
  unfold steps bare
  simp only
  split
  · exact .inr rfl
  · exact .inl rfl

theorem plain_of_down {n : Name} (hnul : p.hasNul = false) (h : .down n ∈ p.steps) : n.IsPlain := by
  have hbare : .down n ∈ p.bare := by
    rcases p.steps_eq with hs | hs
    · rwa [hs] at h
    · simpa [hs] using h
  obtain ⟨piece, hpiece, hof⟩ := List.mem_filterMap.mp hbare
  obtain ⟨hsep, hin⟩ := Text.mem_pieces hpiece
  unfold Step.ofPiece? at hof
  split at hof
  · cases hof
  rename_i hempty
  split at hof
  · cases hof
  rename_i hdot
  split at hof
  · cases hof
  rename_i hdots
  cases hof
  refine ⟨hempty, hdot, hdots, hsep, fun h => ?_⟩
  simp [hasNul, hin _ h] at hnul

theorem filterMap_ofPiece?_of_plain {n : Name} (hn : n.IsPlain) :
    [n].filterMap Step.ofPiece? = [.down n] := by
  simp [Step.ofPiece?, hn.1, hn.2.1, hn.2.2.1]

theorem not_isAbsolute_of_plain {n : Name} (hn : n.IsPlain) : isAbsolute n = false := by
  obtain ⟨c, rest, rfl⟩ := List.exists_cons_of_ne_nil hn.1
  have hc : c ≠ '/' := by rintro rfl; exact hn.2.2.2.1 (by simp)
  simp [isAbsolute, hc]

theorem bare_of_plain {n : Name} (hn : n.IsPlain) : bare n = [.down n] := by
  rw [bare, Text.pieces_of_not_mem hn.2.2.2.1, filterMap_ofPiece?_of_plain hn]

theorem bare_append_slash (p rel : Path) : bare (p ++ '/' :: rel) = p.bare ++ bare rel := by
  rw [bare, Text.pieces_append, List.filterMap_append]
  rfl

theorem join_cases (p : Path) {rel : Path} (h : rel.isAbsolute = false) :
    p = [] ∧ p.join rel = rel ∨
      ∃ front, (p = front ∨ p = front ++ ['/']) ∧ p.join rel = front ++ '/' :: rel := by
  unfold join
  rw [if_neg (by simp [h])]
  split
  · rename_i hend
    by_cases hp : p = []
    · exact .inl ⟨hp, by simp [hp]⟩
    · have hlast : p.getLast? = some '/' := by simpa [endsInSlash, hp] using hend
      obtain ⟨front, rfl⟩ := List.getLast?_eq_some_iff.mp hlast
      exact .inr ⟨front, .inr rfl, by simp⟩
  · exact .inr ⟨p, .inl rfl, rfl⟩

theorem bare_join (p : Path) {rel : Path} (h : rel.isAbsolute = false) :
    (p.join rel).bare = p.bare ++ rel.bare := by
  rcases join_cases p h with ⟨rfl, hjoin⟩ | ⟨front, hp, hjoin⟩
  · rw [hjoin]
    rfl
  · rw [hjoin, bare_append_slash]
    rcases hp with rfl | rfl
    · rfl
    · rw [bare_append_slash]
      simp [bare, Text.pieces, Step.ofPiece?]

/-- What stands between two parts of a path depends on the first part only. -/
theorem exists_join_eq (p : Path) : ∃ between, ∀ rel, isAbsolute rel = false → p.join rel = p ++ between ++ rel := by
  by_cases hp : p = [] ∨ p.endsInSlash = true
  · exact ⟨[], fun rel h => by rw [join, if_neg (by simp [h]), if_pos hp, List.append_nil]⟩
  · exact ⟨['/'], fun rel h => by rw [join, if_neg (by simp [h]), if_neg hp]; simp⟩

theorem endsInSlash_append (front : Path) {t : Text} (h : t ≠ []) : endsInSlash (front ++ t) = endsInSlash t := by
  obtain ⟨inner, c, rfl⟩ := (List.eq_nil_or_concat t).resolve_left h
  rw [List.concat_eq_append, ← List.append_assoc, endsInSlash, endsInSlash, List.getLast?_concat, List.getLast?_concat]

theorem endsInSlash_of_not_mem {t : Text} (h : '/' ∉ t) : endsInSlash t = false := by
  simpa [endsInSlash] using fun hlast => h (List.mem_of_getLast? hlast)

theorem steps_of_not_endsInSlash (h : p.endsInSlash = false) : p.steps = p.bare := by
  simp [steps, bare, h]

theorem steps_join (p : Path) {n : Name} (hn : n.IsPlain) :
    (p.join n).steps = p.bare ++ [.down n] := by
  have hrel := not_isAbsolute_of_plain hn
  have hend : (p.join n).endsInSlash = false := by
    obtain ⟨between, hjoin⟩ := exists_join_eq p
    rw [hjoin n hrel, endsInSlash_append _ hn.1]
    exact endsInSlash_of_not_mem hn.2.2.2.1
  rw [steps_of_not_endsInSlash hend, bare_join p hrel, bare_of_plain hn]

theorem isAbsolute_join (p : Path) {rel : Path} (h : rel.isAbsolute = false) :
    (p.join rel).isAbsolute = p.isAbsolute := by
  unfold join
  rw [if_neg (by simp [h])]
  cases p with
  | nil => simpa [isAbsolute] using h
  | cons c rest => split <;> simp [isAbsolute]

end Path

namespace Disk

variable {d d' : Disk} {final : Final} {p : Path} {place folder : Place} {n : Name} {slash : Bool}
  {last : Last}

theorem start_join (d : Disk) (p : Path) (hn : n.IsPlain) : d.start (p.join n) = d.start p := by
  simp [start, Path.isAbsolute_join p (Path.not_isAbsolute_of_plain hn)]

theorem splitLast_name {steps before : List Step}
    (h : splitLast steps = (before, .name n slash)) :
    steps = before ++ .down n :: (if slash then [.slash] else []) := by
  rw [← List.reverse_reverse steps]
  unfold splitLast at h
  split at h <;> rename_i hs <;>
    simp only [Prod.mk.injEq, Last.name.injEq, reduceCtorEq, and_false] at h
  · obtain ⟨rfl, rfl, rfl⟩ := h
    simp [hs]
  · obtain ⟨rfl, rfl, rfl⟩ := h
    simp [hs]

-- ---------------------------------------------------------------------------
-- Where a path leads
-- ---------------------------------------------------------------------------

theorem locate_found : d.locate final p = .ok (.found place) ↔
    checkPath p = .ok () ∧ d.Route final linkLimit (d.start p) p.steps place := by
  simp only [locate, bind_eq_ok, mapError_ok_iff, walk_found]
  exact ⟨fun ⟨_, hc, h⟩ => ⟨hc, h⟩, fun ⟨hc, h⟩ => ⟨(), hc, h⟩⟩

theorem seek_ok : d.seek final p = .ok place ↔
    checkPath p = .ok () ∧ d.Route final linkLimit (d.start p) p.steps place ∧
      (d.item? place).isSome := by
  simp only [seek, bind_eq_ok]
  constructor
  · rintro ⟨spot, hl, h⟩
    cases spot with
    | found q =>
      simp only at h
      split at h
      · rename_i hs
        cases h
        obtain ⟨hc, hr⟩ := locate_found.mp hl
        exact ⟨hc, hr, hs⟩
      · cases h
    | free _ _ => cases h
  · rintro ⟨hc, hr, hs⟩
    exact ⟨_, locate_found.mpr ⟨hc, hr⟩, by simp [hs]⟩

theorem folderOf_ok : d.folderOf p = .ok (folder, last) ↔
    checkPath p = .ok () ∧ (splitLast p.steps).2 = last ∧
      d.Route .follow linkLimit (d.start p) ((splitLast p.steps).1 ++ [.slash]) folder ∧
      d.isFolderAt folder := by
  simp only [folderOf, bind_eq_ok, ← walk_found]
  constructor
  · rintro ⟨_, hc, h⟩
    split at h
    · rename_i q hw
      split at h
      · rename_i hf
        cases h
        exact ⟨hc, rfl, hw, hf⟩
      · cases h
    · cases h
    · cases h
  · rintro ⟨hc, rfl, hw, hf⟩
    exact ⟨(), hc, by rw [hw]; simp [hf]⟩

theorem child_ok {item : Option Item} : d.child folder n = .ok item ↔
    Text.utf8Size n ≤ nameLimit ∧ d.item? (folder ++ [n]) = item := by
  unfold child
  split
  · rename_i h; simp [Nat.not_le.mpr h]
  · rename_i h; simp [Nat.not_lt.mp h]

theorem checkPath_ok (h : checkPath p = .ok ()) :
    p.hasNul = false ∧ p ≠ [] ∧ Text.utf8Size p < pathLimit := by
  unfold checkPath at h
  split at h
  · cases h
  · rename_i hnul
    split at h
    · cases h
    · rename_i hne
      split at h
      · cases h
      · rename_i hlen
        exact ⟨by simpa using hnul, hne, by omega⟩

theorem checkPath_of (hnul : p.hasNul = false) (hne : p ≠ []) (hlen : Text.utf8Size p < pathLimit) :
    checkPath p = .ok () := by
  simp [checkPath, hnul, hne, Nat.not_le.mpr hlen]

theorem isNotFound_of_checkPath {f : Fault} (h : checkPath p = .error f) (hne : p ≠ []) : f.isNotFound = false := by
  unfold checkPath at h
  split at h
  · cases h
    rfl
  · split at h
    · cases h
      rfl
    · cases h

theorem isFolder_iff : d.isFolder p = true ↔ ∃ place, d.stat p = .ok place ∧ d.isFolderAt place := by
  unfold isFolder
  cases d.stat p <;> simp

theorem list_eq_ok {names : List Name} : d.list p = .ok (folder, names) ↔
    d.stat p = .ok folder ∧ d.isFolderAt folder = true ∧ d.names folder = names := by
  unfold list
  rw [bind_eq_ok]
  constructor
  · rintro ⟨place, hstat, hlist⟩
    split at hlist
    · cases hlist
      exact ⟨hstat, ‹_›, rfl⟩
    · cases hlist
  · rintro ⟨hstat, hfolder, rfl⟩
    exact ⟨folder, hstat, if_pos hfolder⟩

theorem list_of_stat (hs : d.stat p = .ok folder) (hfolder : d.isFolderAt folder) :
    d.list p = .ok (folder, d.names folder) :=
  list_eq_ok.mpr ⟨hs, hfolder, rfl⟩

-- ---------------------------------------------------------------------------
-- The entry under the last name
-- ---------------------------------------------------------------------------

/-- The entry that a path names: a last name in a real folder, whether or not anything has the name. -/
def entry? (d : Disk) (p : Path) : Option Place :=
  match d.folderOf p with
  | .ok (folder, .name n _) => some (folder ++ [n])
  | _ => none

theorem entry?_eq_some : d.entry? p = some place ↔
    ∃ folder n slash, d.folderOf p = .ok (folder, .name n slash) ∧ place = folder ++ [n] := by
  unfold entry?
  split
  · rename_i folder n slash h
    simp only [h, Option.some.injEq, Except.ok.injEq, Prod.mk.injEq, Last.name.injEq]
    exact ⟨fun he => ⟨_, _, _, ⟨rfl, rfl, rfl⟩, he.symm⟩,
      fun ⟨_, _, _, ⟨hf, hn, _⟩, he⟩ => by rw [he, ← hf, ← hn]⟩
  · rename_i h
    exact ⟨fun he => (nomatch he), fun ⟨folder, n, slash, hf, _⟩ => absurd hf (h folder n slash)⟩

theorem entry?_of_folderOf (h : d.folderOf p = .ok (folder, .name n slash)) :
    d.entry? p = some (folder ++ [n]) :=
  entry?_eq_some.mpr ⟨folder, n, slash, h, rfl⟩

theorem folderOf_name (h : d.folderOf p = .ok (folder, .name n slash)) :
    ∃ before, p.steps = before ++ .down n :: (if slash then [.slash] else []) ∧
      d.Route .follow linkLimit (d.start p) before folder ∧ d.isFolderAt folder := by
  obtain ⟨_, hlast, hr, hf⟩ := folderOf_ok.mp h
  obtain ⟨mid, fewer, _, hb, ha, _⟩ := hr.split (by simp)
  obtain rfl : mid = folder := by
    cases ha with
    | slash ha => cases ha; rfl
  exact ⟨_, splitLast_name (Prod.ext rfl hlast), hb, hf⟩

theorem plain_of_folderOf (h : d.folderOf p = .ok (folder, .name n slash)) : n.IsPlain := by
  obtain ⟨before, hs, -, -⟩ := folderOf_name h
  exact Path.plain_of_down (checkPath_ok (folderOf_ok.mp h).1).1 (by simp [hs])

theorem eq_of_lstat (h : d.folderOf p = .ok (folder, .name n false)) (hl : d.lstat p = .ok place) :
    place = folder ++ [n] := by
  obtain ⟨before, hs, hb, -⟩ := folderOf_name h
  obtain ⟨-, hr, -⟩ := seek_ok.mp hl
  rw [hs] at hr
  obtain ⟨mid, fewer, -, hmid, hn, -⟩ := hr.split (by simp)
  obtain rfl := hmid.unique hb
  cases hn with
  | folder _ _ _ hdone => cases hdone; rfl
  | link _ _ _ _ hlook _ => exact absurd rfl (hlook rfl)
  | leaf _ _ _ => rfl

theorem route_of_folderOf (hd : d.WellFormed) (h : d.folderOf p = .ok (folder, .name n false))
    (hi : (d.item? (folder ++ [n])).isSome) (hfinal : d.isLinkAt (folder ++ [n]) → final = .look) :
    d.Route final linkLimit (d.start p) p.steps (folder ++ [n]) := by
  obtain ⟨before, hs, hr, hf⟩ := folderOf_name h
  obtain ⟨item, hitem⟩ := Option.isSome_iff_exists.mp hi
  have hn := (hd.names hitem n (by simp)).2
  rw [hs]
  refine hr.append hf (by simp) (by simp) fun _ => ?_
  cases item with
  | folder mode => exact .folder (by simp) hn hitem .done
  | leaf id => exact .leaf hn hitem fun hl => hfinal (by simp [isLinkAt, node?_of_leaf hitem, hl])

theorem lstat_of_folderOf (hd : d.WellFormed) (h : d.folderOf p = .ok (folder, .name n false))
    (hi : (d.item? (folder ++ [n])).isSome) : d.lstat p = .ok (folder ++ [n]) :=
  seek_ok.mpr ⟨(folderOf_ok.mp h).1, route_of_folderOf hd h hi fun _ => rfl, hi⟩

theorem eq_of_lstat_folder (h : d.folderOf p = .ok (folder, .name n slash))
    (hf : d.isFolderAt (folder ++ [n])) (hl : d.lstat p = .ok place) : place = folder ++ [n] := by
  cases slash with
  | false => exact eq_of_lstat h hl
  | true =>
    obtain ⟨before, hs, hb, -⟩ := folderOf_name h
    obtain ⟨-, hr, -⟩ := seek_ok.mp hl
    rw [hs] at hr
    obtain ⟨mid, fewer, -, hmid, hn, -⟩ := hr.split (by simp)
    obtain rfl := hmid.unique hb
    obtain ⟨mode, hm⟩ := isFolderAt_iff.mp hf
    cases hn with
    | folder _ _ _ hdone => cases hdone with | slash hdone => cases hdone; rfl
    | link _ _ hi _ _ _ => simp [hm] at hi

-- ---------------------------------------------------------------------------
-- A folder's path with one name more
-- ---------------------------------------------------------------------------

theorem Route.bare {links : Nat} {here : Place} (h : d.Route .follow links here p.steps place) :
    d.Route .follow links here p.bare place := by
  rcases p.steps_eq with hs | hs
  · rwa [hs] at h
  · rw [hs] at h
    obtain ⟨mid, fewer, -, hb, ha, -⟩ := h.split (by simp)
    cases ha with
    | slash ha => cases ha; exact hb

theorem Route.of_bare (h : d.Route .follow links here p.bare place) (hf : d.isFolderAt place) :
    d.Route .follow links here p.steps place := by
  rcases p.steps_eq with hs | hs
  · rwa [hs]
  · rw [hs]
    exact h.append_slash hf

theorem splitLast_concat (before : List Step) (n : Name) :
    splitLast (before ++ [.down n]) = (before, .name n false) := by
  simp [splitLast]

theorem folderOf_of_steps {before : List Step} (hc : checkPath p = .ok ()) (hsteps : p.steps = before ++ [.down n])
    (hr : d.Route .follow linkLimit (d.start p) before place) (hf : d.isFolderAt place) :
    d.folderOf p = .ok (place, .name n false) := by
  refine folderOf_ok.mpr ⟨hc, by rw [hsteps, splitLast_concat], ?_, hf⟩
  rw [hsteps, splitLast_concat]
  exact hr.append_slash hf

theorem folderOf_join (hr : d.Route .follow linkLimit (d.start p) p.bare place)
    (hf : d.isFolderAt place) (hn : n.IsPlain) (hc : checkPath (p.join n) = .ok ()) :
    d.folderOf (p.join n) = .ok (place, .name n false) :=
  folderOf_of_steps hc (Path.steps_join p hn) (by rwa [start_join d p hn]) hf

-- ---------------------------------------------------------------------------
-- Paths to a leaf
-- ---------------------------------------------------------------------------

variable {source : Place}

/-- Behind a link is the folder that the steps after it start from. -/
theorem Route.target_folder {links : Nat} {target : Path} {rest : List Step} {id : NodeId}
    (hd : d.WellFormed) (hi : d.item? (folder ++ [n]) = some (.leaf id))
    (h : d.Route .follow links (if target.isAbsolute then [] else folder) (target.steps ++ rest) place)
    (hf : d.isFolderAt place) : ∃ mid fewer, d.isFolderAt mid ∧
      d.Route .follow fewer (if target.isAbsolute then [] else folder) target.steps mid := by
  by_cases hrest : rest = []
  · rw [hrest, List.append_nil] at h
    exact ⟨place, links, hf, h⟩
  · obtain ⟨mid, _, _, hmid, -, hfolder⟩ := h.split hrest
    exact ⟨mid, links, hfolder hd (hd.isFolderAt_base hi target), hmid⟩

/-- A path that leads to a leaf ends in a name without a slash. -/
theorem route_of_stat_leaf (hd : d.WellFormed) (h : d.folderOf p = .ok (folder, .name n slash))
    (hl : d.stat p = .ok source) (hs : d.isFolderAt source = false) :
    slash = false ∧ ∃ links, d.Route .follow links folder [.down n] source := by
  obtain ⟨before, hsteps, hb, hfolder⟩ := folderOf_name h
  obtain ⟨-, hr, -⟩ := seek_ok.mp hl
  rw [hsteps] at hr
  obtain ⟨mid, fewer, -, hmid, hlast, -⟩ := hr.split (by simp)
  obtain rfl := hmid.unique hb
  cases slash with
  | false => exact ⟨rfl, fewer, hlast⟩
  | true =>
    -- What a slash follows is a folder, and the path would end there.
    exfalso
    have hparts : d.Route .follow fewer mid ([.down n] ++ [.slash]) source := hlast
    obtain ⟨place, _, _, hto, hslash, hplace⟩ := hparts.split (by simp)
    have hf := hplace hd hfolder
    cases hslash with
    | slash hdone =>
      cases hdone
      simp [hf] at hs

/-- The entry that a path to a leaf names is not on the way to its own folder. -/
theorem route_without_entry (hd : d.WellFormed) (h : d.folderOf p = .ok (folder, .name n slash))
    (hl : d.stat p = .ok source) (hs : d.isFolderAt source = false) :
    ∃ id, d.item? (folder ++ [n]) = some (.leaf id) ∧ (d.eraseItem (folder ++ [n])).Route .follow
      linkLimit (d.start p) ((splitLast p.steps).1 ++ [.slash]) folder := by
  obtain ⟨-, links, hlast⟩ := route_of_stat_leaf hd h hl hs
  obtain ⟨-, -, hr, hf⟩ := folderOf_ok.mp h
  have hne : folder ≠ folder ++ [n] := by simp
  cases hlast with
  | folder _ _ hi hdone =>
    cases hdone
    simp [isFolderAt, hi] at hs
  | leaf _ hi hlink =>
    exact ⟨_, hi, hr.erase hi (by simpa using hlink) hne⟩
  | @link _ _ _ id target _ _ hc hsize hi hn hlast hto =>
    refine ⟨id, hi, (hr.erase_or_through hi hne).resolve_right ?_⟩
    rintro ⟨above, m, target', rest, fewer, heq, hn', hthrough⟩
    obtain ⟨rfl, -⟩ := List.append_inj' heq rfl
    obtain rfl : target = target' := by simpa [hn] using hn'
    obtain ⟨mid, _, hmid, hroute⟩ := Route.target_folder hd hi hthrough hf
    rw [List.append_nil] at hto
    obtain rfl := hto.unique hroute
    simp [hmid] at hs

-- ---------------------------------------------------------------------------
-- Calls that remove an entry
-- ---------------------------------------------------------------------------

theorem unlink_ok : d.unlink p = .ok d' ↔ ∃ folder n id,
    d.folderOf p = .ok (folder, .name n false) ∧ Text.utf8Size n ≤ nameLimit ∧
      d.item? (folder ++ [n]) = some (.leaf id) ∧ (d.node id).isFixed = false ∧
      d' = d.eraseItem (folder ++ [n]) := by
  simp only [unlink, bind_eq_ok]
  constructor
  · rintro ⟨⟨folder, last⟩, hf, h⟩
    cases last with
    | name n slash =>
      simp only [bind_eq_ok] at h
      obtain ⟨item, hc, h⟩ := h
      obtain ⟨hn, hi⟩ := child_ok.mp hc
      rcases item with _ | _ | id
      · cases h
      · cases h
      · cases slash with
        | true => simp at h
        | false =>
          simp only [Bool.false_eq_true, if_false] at h
          split at h
          · cases h
          · rename_i hx
            cases h
            exact ⟨folder, n, id, hf, hn, hi, by simpa using hx, rfl⟩
    | _ => cases h
  · rintro ⟨folder, n, id, hf, hn, hi, hx, rfl⟩
    exact ⟨_, hf, bind_eq_ok.mpr ⟨_, child_ok.mpr ⟨hn, hi⟩, by simp [hx]⟩⟩

theorem removeFolder_ok : d.removeFolder p = .ok d' ↔ ∃ folder n slash,
    d.folderOf p = .ok (folder, .name n slash) ∧ Text.utf8Size n ≤ nameLimit ∧
      d.isFolderAt (folder ++ [n]) ∧ d.names (folder ++ [n]) = [] ∧ d' = d.eraseItem (folder ++ [n]) := by
  simp only [removeFolder, bind_eq_ok]
  constructor
  · rintro ⟨⟨folder, last⟩, hf, h⟩
    cases last with
    | name n slash =>
      simp only [bind_eq_ok] at h
      obtain ⟨item, hc, h⟩ := h
      obtain ⟨hn, hi⟩ := child_ok.mp hc
      rcases item with _ | mode | _
      · cases h
      · simp only at h
        split at h
        · rename_i hempty
          cases h
          exact ⟨folder, n, slash, hf, hn, isFolderAt_of_item hi, hempty, rfl⟩
        · cases h
      · cases h
    | _ => cases h
  · rintro ⟨folder, n, slash, hf, hn, hfolder, hempty, rfl⟩
    obtain ⟨mode, hm⟩ := isFolderAt_iff.mp hfolder
    exact ⟨_, hf, bind_eq_ok.mpr ⟨_, child_ok.mpr ⟨hn, hm⟩, by simp [hempty]⟩⟩

-- ---------------------------------------------------------------------------
-- The same path on a changed disk
-- ---------------------------------------------------------------------------

theorem start_eq {a : Path} (hcwd : d'.cwd = d.cwd) (habs : a.isAbsolute = p.isAbsolute) :
    d'.start a = d.start p := by
  simp [Disk.start, hcwd, habs]

theorem Within.start (hcwd : d'.cwd = d.cwd) (p : Path) : d'.start p = d.start p := start_eq hcwd rfl

theorem Within.folderOf (hw : d.Within d') (hcwd : d'.cwd = d.cwd)
    (h : d.folderOf p = .ok (folder, last)) : d'.folderOf p = .ok (folder, last) := by
  obtain ⟨hc, hl, hr, hf⟩ := folderOf_ok.mp h
  exact folderOf_ok.mpr ⟨hc, hl, by rw [Within.start hcwd]; exact hr.within hw, hw.isFolderAt hf⟩

theorem Within.seek (hw : d.Within d') (hcwd : d'.cwd = d.cwd) (h : d.seek final p = .ok place) :
    d'.seek final p = .ok place := by
  obtain ⟨hc, hr, hs⟩ := seek_ok.mp h
  obtain ⟨item, hi⟩ := Option.isSome_iff_exists.mp hs
  exact seek_ok.mpr ⟨hc, by rw [Within.start hcwd]; exact hr.within hw, by simp [hw.item hi]⟩

end Disk

end SafeFiles
