import SafeFiles.Proofs.TempLaws

/-!
# Names of temporary files

The name of a temporary file is a few bytes longer than its stem and means
nothing but itself in a path, so one can be made wherever the folder is there and
some tag is free. However odd the stem is, the last name of the temporary path is
longer than the last name of the path that the file is to replace.
-/

namespace SafeFiles

namespace Text

theorem utf8Size_cons (c : Char) (t : Text) : utf8Size (c :: t) = c.utf8Size + utf8Size t := rfl

theorem utf8Size_append (t u : Text) : utf8Size (t ++ u) = utf8Size t + utf8Size u := by
  induction t with
  | nil => simp [utf8Size]
  | cons c rest ih => simp only [List.cons_append, utf8Size_cons, ih, Nat.add_assoc]

theorem utf8Size_pos {t : Text} (h : t ≠ []) : 0 < utf8Size t := by
  obtain ⟨c, rest, rfl⟩ := List.exists_cons_of_ne_nil h
  exact Nat.add_pos_left c.utf8Size_pos _

theorem getLast?_pieces_append (sep : Char) (t u : Text) :
    (pieces sep (t ++ sep :: u)).getLast? = (pieces sep u).getLast? := by
  rw [pieces_append, List.getLast?_append, Option.or_of_isSome]
  simp [pieces_ne_nil]

theorem getLast?_pieces_of_not_mem {sep : Char} {t : Text} (h : sep ∉ t) :
    (pieces sep t).getLast? = some t := by
  rw [pieces_of_not_mem h]
  rfl

theorem exists_last_piece {sep : Char} {t : Text} (h : sep ∈ t) :
    ∃ front back, t = front ++ sep :: back ∧ sep ∉ back := by
  obtain ⟨back, front, ht, hback⟩ := List.eq_append_cons_of_mem (List.mem_reverse.mpr h)
  refine ⟨front.reverse, back.reverse, ?_, by simpa using hback⟩
  rw [← List.reverse_reverse t, ht]
  simp

end Text

namespace Path

variable {p rel : Path} {n : Name}

theorem getLast?_pieces_join (p rel : Path) :
    (Text.pieces '/' (p.join rel)).getLast? = (Text.pieces '/' rel).getLast? := by
  cases h : rel.isAbsolute with
  | true => rw [join, if_pos h]
  | false =>
    rcases join_cases p h with ⟨-, hjoin⟩ | ⟨front, -, hjoin⟩
    · rw [hjoin]
    · rw [hjoin, Text.getLast?_pieces_append]

theorem piece_of_last {front before : List Step} {piece : Text} (hne : piece ≠ [])
    (h : front ++ [piece].filterMap Step.ofPiece? = before ++ [.down n]) : piece = n := by
  have hlast := congrArg List.getLast? h
  by_cases hdot : piece = ['.']
  · simp [Step.ofPiece?, hdot] at hlast
  by_cases hdots : piece = ['.', '.']
  · simp [Step.ofPiece?, hdots] at hlast
  simpa [Step.ofPiece?, hne, hdot, hdots] using hlast

theorem join_ne_nil (h : rel ≠ []) : p.join rel ≠ [] := by
  unfold join
  split
  · exact h
  · split
    · simp [h]
    · simp

theorem utf8Size_join_le (p rel : Path) :
    Text.utf8Size (p.join rel) ≤ Text.utf8Size p + Text.utf8Size rel + 1 := by
  have hslash : Char.utf8Size '/' = 1 := by decide
  unfold join
  split
  · omega
  · split
    · rw [Text.utf8Size_append]
      omega
    · rw [Text.utf8Size_append, Text.utf8Size_cons, hslash]
      omega

theorem hasNul_join (h : p.hasNul = false) (h' : rel.hasNul = false) : (p.join rel).hasNul = false := by
  simp only [hasNul, List.contains_eq_mem, decide_eq_false_iff_not] at h h' ⊢
  unfold join
  split
  · exact h'
  · split
    · simp [h, h']
    · simp [h, h']

theorem getLast?_pieces_of_name (h : (Disk.splitLast p.steps).2 = .name n false) :
    (Text.pieces '/' p).getLast? = some n := by
  have hsteps : p.steps = (Disk.splitLast p.steps).1 ++ [.down n] :=
    Disk.splitLast_name (Prod.ext rfl h)
  generalize (Disk.splitLast p.steps).1 = before at hsteps
  obtain ⟨hend, hbare⟩ : p.endsInSlash = false ∧ p.bare = before ++ [.down n] := by
    unfold steps at hsteps
    simp only at hsteps
    split at hsteps
    · have hlast := congrArg List.getLast? hsteps
      simp at hlast
    · rename_i hslash
      refine ⟨?_, hsteps⟩
      cases he : p.endsInSlash with
      | false => rfl
      | true => exact absurd ⟨by rw [hsteps]; simp, he⟩ hslash
  by_cases hsep : '/' ∈ p
  · obtain ⟨front, back, rfl, hback⟩ := Text.exists_last_piece hsep
    rw [Text.getLast?_pieces_append, Text.getLast?_pieces_of_not_mem hback]
    rw [bare_append_slash, bare, bare, Text.pieces_of_not_mem hback] at hbare
    have hne : back ≠ [] := by rintro rfl; simp [endsInSlash] at hend
    rw [piece_of_last hne hbare]
  · rw [Text.getLast?_pieces_of_not_mem hsep]
    rw [bare, Text.pieces_of_not_mem hsep, ← List.nil_append (List.filterMap _ _)] at hbare
    have hne : p ≠ [] := by rintro rfl; simp [Step.ofPiece?] at hbare
    rw [piece_of_last hne hbare]

end Path

namespace Place

theorem isAbsolute_path (place : Place) : place.path.isAbsolute = true := by
  cases place <;> rfl

theorem bare_flatMap (names : List Name) (h : ∀ n ∈ names, n.IsPlain) :
    Path.bare (names.flatMap ('/' :: ·)) = names.map .down := by
  induction names using List.reverseRecOn with
  | nil => rfl
  | append_singleton names n ih =>
    rw [List.flatMap_append, List.flatMap_singleton, Path.bare_append_slash,
      ih fun m hm => h m (List.mem_append_left _ hm), Path.bare_of_plain (h n (by simp))]
    simp

theorem bare_path (place : Place) (h : ∀ n ∈ place, n.IsPlain) : place.path.bare = place.map .down := by
  cases place with
  | nil => rfl
  | cons n rest => exact bare_flatMap (n :: rest) h

theorem hasNul_path (place : Place) (h : ∀ n ∈ place, n.IsPlain) : place.path.hasNul = false := by
  cases place with
  | nil => rfl
  | cons n rest =>
    simp only [path, Path.hasNul, List.contains_eq_mem, decide_eq_false_iff_not, List.mem_flatMap,
      List.mem_cons, not_exists, not_and, not_or]
    exact fun m hm => ⟨by decide, (h m (List.mem_cons.mpr hm)).2.2.2.2⟩

theorem path_inj {a b : Place} (ha : ∀ n ∈ a, n.IsPlain) (hb : ∀ n ∈ b, n.IsPlain)
    (h : a.path = b.path) : a = b := by
  have hbare := congrArg Path.bare h
  rw [bare_path a ha, bare_path b hb] at hbare
  exact (List.map_inj_right fun _ _ hd => Step.down.inj hd).mp hbare

end Place

-- ---------------------------------------------------------------------------
-- Tags and names
-- ---------------------------------------------------------------------------

namespace Temp

variable {d : Disk} {stem : Text} {k : Nat} {folder p : Path} {home place : Place}

theorem isDigit_of_mem_tag {c : Char} (h : c ∈ tag k) : c.isDigit := by
  unfold tag at h
  rcases List.mem_append.mp h with h | h
  · rw [(List.mem_replicate.mp h).2]
    rfl
  · exact Nat.isDigit_of_mem_toDigits (by decide) (by decide) h

theorem length_tag (h : k < tagLimit) : (tag k).length = 6 := by
  have hdigits : (decimal k).length ≤ 6 :=
    (Nat.length_toDigits_le_iff (by decide) (by decide)).mpr (by unfold tagLimit at h; omega)
  simp only [tag, List.length_append, List.length_replicate]
  omega

theorem utf8Size_of_isDigit {c : Char} (h : c.isDigit) : c.utf8Size = 1 := by
  simp only [Char.isDigit, Bool.and_eq_true, decide_eq_true_eq] at h
  exact Char.utf8Size_eq_one_iff.mpr (UInt32.le_trans h.2 (by decide))

theorem utf8Size_of_digits {t : Text} (h : ∀ c ∈ t, c.isDigit) : Text.utf8Size t = t.length := by
  induction t with
  | nil => rfl
  | cons c rest ih =>
    rw [Text.utf8Size_cons, utf8Size_of_isDigit (h c List.mem_cons_self),
      ih fun c hc => h c (List.mem_cons_of_mem _ hc), List.length_cons, Nat.add_comm]

theorem utf8Size_tag (h : k < tagLimit) : Text.utf8Size (tag k) = 6 := by
  rw [utf8Size_of_digits fun c hc => isDigit_of_mem_tag hc, length_tag h]

theorem not_mem_tag {c : Char} (h : c.isDigit = false) : c ∉ tag k := fun hc => by
  simp [isDigit_of_mem_tag hc] at h

def front : Text := ['.', 'f', 's', '_', 'g', 'u', 'a', 'r', 'd', '.']

def ending (k : Nat) : Text := '.' :: tag k ++ ['.', 't', 'm', 'p']

theorem name_eq (stem : Text) (k : Nat) : name stem (tag k) = front ++ stem ++ ending k :=
  List.append_assoc (front ++ stem) ('.' :: tag k) ['.', 't', 'm', 'p']

theorem not_mem_ending {c : Char} (hdigit : c.isDigit = false) (h : c ∉ ['.', 't', 'm', 'p']) :
    c ∉ ending k := by
  have hdot : c ≠ '.' := by rintro rfl; exact h (by decide)
  simp [ending, hdot, not_mem_tag hdigit, h]

theorem utf8Size_name (stem : Text) (h : k < tagLimit) :
    Text.utf8Size (name stem (tag k)) = Text.utf8Size stem + 21 := by
  have hfront : Text.utf8Size front = 10 := by decide
  have hback : Text.utf8Size ['.', 't', 'm', 'p'] = 4 := by decide
  have hdot : Char.utf8Size '.' = 1 := by decide
  rw [name_eq, ending, Text.utf8Size_append, Text.utf8Size_append, Text.utf8Size_append,
    Text.utf8Size_cons, utf8Size_tag h, hfront, hback, hdot]
  omega

theorem name_isPlain (hstem : Name.IsPlain stem) (k : Nat) : Name.IsPlain (name stem (tag k)) := by
  obtain ⟨-, -, -, hslash, hnul⟩ := hstem
  have hfront : '/' ∉ front ∧ '\x00' ∉ front := by decide
  rw [name_eq]
  refine ⟨?_, ?_, ?_, ?_, ?_⟩
  · simp [front]
  · simp [front]
  · simp [front]
  · simp only [List.mem_append, not_or]
    exact ⟨⟨hfront.1, hslash⟩, not_mem_ending (by decide) (by decide)⟩
  · simp only [List.mem_append, not_or]
    exact ⟨⟨hfront.2, hnul⟩, not_mem_ending (by decide) (by decide)⟩

/-- What comes behind the last slash of a stem is shorter than what comes behind that of its name. -/
theorem getLast?_pieces_name (stem : Text) (k : Nat) :
    (Text.pieces '/' (name stem (tag k))).getLast? ≠ (Text.pieces '/' stem).getLast? := by
  have hending : '/' ∉ ending k := not_mem_ending (by decide) (by decide)
  have hlonger : 0 < (ending k).length := by simp [ending]
  rw [name_eq]
  by_cases hsep : '/' ∈ stem
  · obtain ⟨before, back, rfl, hback⟩ := Text.exists_last_piece hsep
    rw [show front ++ (before ++ '/' :: back) ++ ending k =
        (front ++ before) ++ '/' :: (back ++ ending k) by simp,
      Text.getLast?_pieces_append, Text.getLast?_pieces_append,
      Text.getLast?_pieces_of_not_mem hback, Text.getLast?_pieces_of_not_mem (by simp [hback, hending])]
    intro h
    have hlength := congrArg List.length (Option.some.inj h)
    simp only [List.length_append] at hlength
    omega
  · have hfront : '/' ∉ front := by decide
    rw [Text.getLast?_pieces_of_not_mem hsep,
      Text.getLast?_pieces_of_not_mem (by simp [hfront, hsep, hending])]
    intro h
    have hlength := congrArg List.length (Option.some.inj h)
    simp only [List.length_append] at hlength
    omega

theorem eq_of_join {above : Place} {n : Name} (hslash : '/' ∉ stem)
    (h : d.folderOf (folder.join stem) = .ok (above, .name n false)) : n = stem := by
  have hlast := Path.getLast?_pieces_of_name (Disk.folderOf_ok.mp h).2.1
  rw [Path.getLast?_pieces_join, Text.getLast?_pieces_of_not_mem hslash] at hlast
  exact (Option.some.inj hlast).symm

/-- A temporary file never has the name of the path that it is to replace. -/
theorem name_ne {above home : Place} {n m : Name}
    (h : d.folderOf (p.join (name stem (tag k))) = .ok (home, .name n false))
    (h' : d.folderOf (folder.join stem) = .ok (above, .name m false)) : home ++ [n] ≠ above ++ [m] := by
  have hn := Path.getLast?_pieces_of_name (Disk.folderOf_ok.mp h).2.1
  have hm := Path.getLast?_pieces_of_name (Disk.folderOf_ok.mp h').2.1
  rw [Path.getLast?_pieces_join] at hn hm
  intro heq
  obtain ⟨-, hlast⟩ := List.append_inj' heq rfl
  exact getLast?_pieces_name stem k (by rw [hn, hm, List.cons.inj hlast |>.1])

-- ---------------------------------------------------------------------------
-- A name that is free
-- ---------------------------------------------------------------------------

/-- The absolute path of a folder leads where the path that was given leads. -/
theorem route_base (hd : d.WellFormed) (hnul : folder.hasNul = false)
    (hr : d.Route .follow linkLimit (d.start folder) folder.bare home) (hcwd : folder.isAbsolute ∨ d.isFolderAt d.cwd) :
    (base d folder).hasNul = false ∧
      d.Route .follow linkLimit (d.start (base d folder)) (base d folder).bare home := by
  unfold base
  split
  · exact ⟨hnul, hr⟩
  · rename_i hrel
    replace hrel : folder.isAbsolute = false := by simpa using hrel
    have hcwd := hcwd.resolve_left (by simp [hrel])
    obtain ⟨mode, hm⟩ := Disk.isFolderAt_iff.mp hcwd
    have hplain : ∀ n ∈ d.cwd, n.IsPlain := fun n hn => (hd.names hm n hn).1
    have hstart : d.start (d.cwdPath.join folder) = [] := by
      rw [Disk.start, Path.isAbsolute_join _ hrel, Disk.cwdPath, Place.isAbsolute_path, if_pos rfl]
    rw [hstart, Path.bare_join _ hrel, Disk.cwdPath, Place.bare_path _ hplain]
    refine ⟨Path.hasNul_join (Place.hasNul_path _ hplain) hnul, .enter hd d.cwd hcwd ?_⟩
    simpa [Disk.start, hrel] using hr

theorem createNew_of_folderOf {n : Name} (h : d.folderOf p = .ok (home, .name n false))
    (hn : Text.utf8Size n ≤ nameLimit) (mode : Mode) :
    d.createNew p mode = if (d.item? (home ++ [n])).isSome then .error (.system .taken)
      else .ok (d.addNode (home ++ [n]) (.file mode [])) := by
  rw [Disk.createNew, h]
  cases hi : d.item? (home ++ [n]) with
  | none => simp [bind, Except.bind, Disk.child, Nat.not_lt.mpr hn, hi]
  | some item => simp [bind, Except.bind, Disk.child, Nat.not_lt.mpr hn, hi]

theorem reserveFrom_of_free {n tries : Nat}
    (h : ∀ k, k < n + tries → Text.utf8Size (name stem (tag k)) ≤ nameLimit ∧
      d.folderOf ((base d folder).join (name stem (tag k))) = .ok (home, .name (name stem (tag k)) false))
    (hfree : ∃ k, n ≤ k ∧ k < n + tries ∧ d.item? (home ++ [name stem (tag k)]) = none) :
    ∃ p made, reserveFrom d folder stem n tries = .ok (p, made) := by
  induction tries generalizing n with
  | zero =>
    obtain ⟨k, hle, hlt, -⟩ := hfree
    omega
  | succ tries ih =>
    obtain ⟨hn, hf⟩ := h n (by omega)
    simp only [reserveFrom, createNew_of_folderOf hf hn]
    by_cases htaken : (d.item? (home ++ [name stem (tag n)])).isSome
    · obtain ⟨k, hle, hlt, hk⟩ := hfree
      have hne : k ≠ n := by rintro rfl; simp [hk] at htaken
      simp only [htaken, if_true, show (Fault.system .taken).kind = .alreadyExists from rfl]
      exact ih (fun k hk => h k (by omega)) ⟨k, by omega, by omega, hk⟩
    · simp only [if_neg htaken]
      exact ⟨_, _, rfl⟩

theorem reserve_of_free (hd : d.WellFormed) (hl : d.stat folder = .ok home) (hf : d.isFolderAt home)
    (hcwd : folder.isAbsolute ∨ d.isFolderAt d.cwd) (hstem : Name.IsPlain stem)
    (hshort : Text.utf8Size stem + 21 ≤ nameLimit)
    (hlen : ∀ k, k < tagLimit → Text.utf8Size ((base d folder).join (name stem (tag k))) < pathLimit)
    (hfree : ∃ k, k < tagLimit ∧ d.item? (home ++ [name stem (tag k)]) = none) :
    ∃ p made, reserve d folder stem = .ok (p, made) := by
  obtain ⟨hc, hfolder, -⟩ := Disk.seek_ok.mp hl
  obtain ⟨hnul, hr⟩ := route_base hd (Disk.checkPath_ok hc).1 hfolder.bare hcwd
  have hnames : ∀ k, k < 0 + tagLimit → Text.utf8Size (name stem (tag k)) ≤ nameLimit ∧
      d.folderOf ((base d folder).join (name stem (tag k))) =
        .ok (home, .name (name stem (tag k)) false) := by
    intro k hk
    have hk' : k < tagLimit := by simpa using hk
    have hplain := name_isPlain hstem k
    refine ⟨by rw [utf8Size_name stem hk']; exact hshort, Disk.folderOf_join hr hf hplain ?_⟩
    refine Disk.checkPath_of (Path.hasNul_join hnul ?_) (Path.join_ne_nil hplain.1) (hlen k hk')
    simpa [Path.hasNul] using hplain.2.2.2.2
  obtain ⟨k, hk, hnone⟩ := hfree
  obtain ⟨p, made, hmade⟩ := reserveFrom_of_free hnames ⟨k, by omega, by simpa using hk, hnone⟩
  exact ⟨p, made, reserve_eq_ok.mpr ⟨hcwd, hmade⟩⟩

/-- A temporary file for a name without slashes stands beside what it is to replace. -/
theorem folderOf_beside {above : Place} {n : Name} (hd : d.WellFormed)
    (hcwd : folder.isAbsolute ∨ d.isFolderAt d.cwd) (hslash : '/' ∉ stem)
    (h : d.folderOf (folder.join stem) = .ok (above, .name n false))
    (hc : Disk.checkPath ((base d folder).join (name stem (tag k))) = .ok ()) :
    d.folderOf ((base d folder).join (name stem (tag k))) = .ok (above, .name (name stem (tag k)) false) := by
  obtain rfl := eq_of_join hslash h
  have hplain := Disk.plain_of_folderOf h
  obtain ⟨before, hsteps, hr, hf⟩ := Disk.folderOf_name h
  rw [Path.steps_join _ hplain] at hsteps
  obtain ⟨rfl, -⟩ := List.append_inj' hsteps rfl
  rw [Disk.start_join d _ hplain] at hr
  have hnul : folder.hasNul = false := by
    obtain ⟨between, hjoin⟩ := Path.exists_join_eq folder
    have hjoined := (Disk.checkPath_ok (Disk.folderOf_ok.mp h).1).1
    rw [hjoin n (Path.not_isAbsolute_of_plain hplain)] at hjoined
    simp only [Path.hasNul, List.contains_eq_mem, decide_eq_false_iff_not, List.mem_append, not_or] at hjoined ⊢
    exact hjoined.1.1
  exact Disk.folderOf_join (route_base hd hnul hr hcwd).2 hf (name_isPlain hplain k) hc

end Temp

end SafeFiles
