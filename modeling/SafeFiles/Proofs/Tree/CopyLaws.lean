import SafeFiles.Proofs.Disk.BrinkLaws
import SafeFiles.Proofs.Disk.KeptLaws
import SafeFiles.Proofs.Path.JoinLaws
import SafeFiles.Tree.Copy

/-!
# What a copy of a tree leaves alone

A copy makes folders and fills files, so no entry goes and no link changes
whatever the two paths are (`Disk.Kept`). Bytes are safe as well if the destination
is forthright: all that is made then stands at its brink or below, and every file
opened is new. With a `..` behind a missing name the destination comes into being
only while it is copied to, and what it names then is not what was asked for before.
-/

namespace SafeFiles

namespace Disk

variable {d d' : Disk} {here place : Place} {links : Nat} {steps : List Step} {p : Path}

-- ---------------------------------------------------------------------------
-- The source and the targets
-- ---------------------------------------------------------------------------

theorem Route.look_of_follow (h : d.Route .follow links here steps place) (hf : d.isFolderAt place) :
    ∃ q, d.Route .look links here steps q ∧ (d.isFolderAt q ∨ d.isLinkAt q) := by
  induction h with
  | done => exact ⟨_, .done, .inl hf⟩
  | stay _ ih => exact (ih hf).imp fun _ hq => hq.imp .stay id
  | slash _ ih => exact (ih hf).imp fun _ hq => hq.imp .slash id
  | up _ ih => exact (ih hf).imp fun _ hq => hq.imp .up id
  | folder _ hn hi _ ih => exact (ih hf).imp fun _ hq => hq.imp (.folder (by simp) hn hi) id
  | @link _ _ _ _ _ rest _ _ hn hi hl _ _ ih =>
    by_cases hrest : rest = []
    · subst hrest
      refine ⟨_, .leaf hn hi fun _ => rfl, .inr ?_⟩
      simp [isLinkAt, node?_of_leaf hi, hl, Node.isLink]
    · obtain ⟨q, hr, hq⟩ := ih hf
      exact ⟨q, .link (by simp) hn hi hl (fun h => absurd h hrest) hr, hq⟩
  | leaf _ hi _ => simp [isFolderAt, hi] at hf

theorem kindAt_of_isFolder (h : d.isFolder p) : ∃ place, d.lstat p = .ok place ∧ d.kindAt place ≠ .other := by
  unfold isFolder at h
  split at h
  · rename_i place hs
    obtain ⟨hc, hr, -⟩ := seek_ok.mp hs
    obtain ⟨q, hlook, hq⟩ := hr.look_of_follow h
    refine ⟨q, seek_ok.mpr ⟨hc, hlook, ?_⟩, ?_⟩
    · cases hi : d.item? q with
      | none => simp [isFolderAt, isLinkAt, node?, hi] at hq
      | some item => rfl
    · unfold kindAt
      split
      · simp
      · rename_i hf
        simp [hq.resolve_left hf]
  · cases h

theorem there_of_route (hc : checkPath p = .ok ())
    (hr : d.Route .follow linkLimit (d.start p) p.bare place) (hf : d.isFolderAt place) : d.there p = true := by
  obtain ⟨mode, hm⟩ := isFolderAt_iff.mp hf
  have hstat : d.stat p = .ok place := seek_ok.mpr ⟨hc, hr.of_bare hf, by simp [hm]⟩
  simp [there, hstat, Except.isOk, Except.toBool]

theorem checkPath_of_openWrite {opening : Opening} (h : d.openWrite p opening = .ok (place, d')) :
    checkPath p = .ok () := by
  rcases openWrite_ok h with ⟨folder, n, hl, -, -⟩ | ⟨id, hl, -, -⟩
  · exact (locate_free hl).1
  · exact (locate_found.mp hl).1

-- ---------------------------------------------------------------------------
-- Entries in listing order
-- ---------------------------------------------------------------------------

def entries (d : Disk) (folder : Place) : List (Name × EntryKind) :=
  (d.names folder).map fun n => (n, d.kindAt (folder ++ [n]))

theorem map_fst_entries (d : Disk) (folder : Place) : (d.entries folder).map Prod.fst = d.names folder := by
  rw [entries, List.map_map]
  exact List.map_id _

end Disk

namespace TreeCopy

variable {c : TreeCopy} {P : Disk → Prop} {d d' d'' : Disk} {rel : List Name} {kind : EntryKind} {s after : Session}
  {visits later : List (List Name × EntryKind)} {items : List (Name × EntryKind)}
  {walk walk' : List Name → EntryKind → Session → Except Report Unit × Session}

theorem targetPath_eq (h : ∀ n ∈ rel, n.IsPlain) : c.targetPath rel = rel.foldl Path.join c.dst := by
  induction rel using List.reverseRecOn with
  | nil => rfl
  | append_singleton rel n ih =>
    have hn := h n (by simp)
    have hrel : ∀ m ∈ rel, m.IsPlain := fun m hm => h m (by simp [hm])
    rw [List.foldl_append, List.foldl_cons, List.foldl_nil, ← ih hrel, targetPath, if_neg (by simp), targetPath]
    split
    · rename_i hnil
      simp [hnil, Text.joinWith]
    · rename_i hne
      have hfit : Path.Fit .none rel :=
        ⟨fun m hm => (hrel m hm).2.2.2.1, fun _ m hm => (hrel m (List.mem_of_mem_head? hm)).1⟩
      obtain ⟨inner, last, hlast⟩ := (List.eq_nil_or_concat rel).resolve_left hne
      have hplain : last.IsPlain := hrel last (by simp [hlast])
      obtain ⟨front, hfront⟩ := Path.exists_assemble_append .none inner last
      have hjoined : Text.joinWith '/' rel = front ++ last := by
        rw [hlast, List.concat_eq_append]
        exact hfront
      rw [Text.joinWith_concat '/' hne]
      refine Path.join_append_slash _ (by simp [hjoined, hplain.1]) ?_ ?_ hn
      · simpa [Path.assemble] using Path.isAbsolute_assemble hfit
      · rw [hjoined]
        rw [Path.endsInSlash_append _ hplain.1]
        exact Path.endsInSlash_of_not_mem hplain.2.2.2.1

-- ---------------------------------------------------------------------------
-- One step of a walk
-- ---------------------------------------------------------------------------

def walkEach (walk : List Name → EntryKind → Session → Except Report Unit × Session) (rel : List Name)
    (items : List (Name × EntryKind)) (result : Except Report Unit × Session) : Except Report Unit × Session :=
  items.foldl (fun result item =>
    match result with
    | (.error r, s) => (.error r, s)
    | (.ok (), s) => walk (rel ++ [item.1]) item.2 s) result

theorem walkEach_error {r : Report} : walkEach walk rel items (.error r, s) = (.error r, s) := by
  induction items with
  | nil => rfl
  | cons item items ih => exact ih

theorem walkEach_cons (item : Name × EntryKind) : walkEach walk rel (item :: items) (.ok (), s) =
    walkEach walk rel items (walk (rel ++ [item.1]) item.2 s) := rfl

theorem walkEach_keeps {result : Except Report Unit × Session}
    (hwalk : ∀ item ∈ items, ∀ s : Session, P s.disk → P (walk (rel ++ [item.1]) item.2 s).2.disk)
    (h : P result.2.disk) : P (walkEach walk rel items result).2.disk := by
  induction items generalizing result with
  | nil => exact h
  | cons item items ih =>
    rcases result with ⟨r | _, s⟩
    · rwa [walkEach_error]
    · exact ih (fun item hitem => hwalk item (List.mem_cons_of_mem _ hitem)) (hwalk item List.mem_cons_self s h)

theorem walkEach_congr {result : Except Report Unit × Session}
    (hwalk : ∀ item ∈ items, ∀ s : Session, P s.disk →
      walk (rel ++ [item.1]) item.2 s = walk' (rel ++ [item.1]) item.2 s ∧ P (walk (rel ++ [item.1]) item.2 s).2.disk)
    (h : P result.2.disk) : walkEach walk rel items result = walkEach walk' rel items result := by
  induction items generalizing result with
  | nil => rfl
  | cons item items ih =>
    rcases result with ⟨r | _, s⟩
    · rw [walkEach_error, walkEach_error]
    · obtain ⟨heq, hkept⟩ := hwalk item List.mem_cons_self s h
      rw [walkEach_cons, walkEach_cons, ← heq]
      exact ih (fun item hitem => hwalk item (List.mem_cons_of_mem _ hitem)) hkept

/-- All that one step of the walk can do. -/
theorem within_succ (c : TreeCopy) (depth : Nat) (rel : List Name) (kind : EntryKind) (s : Session) :
    c.within (depth + 1) rel kind s =
      match c.entry rel kind s with
      | (.error r, after) => (.error r, after)
      | (.ok (), after) =>
        if kind = .folder ∨ rel = [] then
          match s.disk.list (c.sourcePath rel) with
          | .error f => (.error (Report.within ⟨[], .walk (c.sourcePath rel) f⟩ s!"walk '{shown c.src}'"), after)
          | .ok (place, _) => walkEach (c.within depth) rel (after.disk.entries place) (.ok (), after)
        else (.ok (), after) := by
  rw [within]
  cases c.entry rel kind s with
  | mk result after =>
    cases result with
    | error r => rfl
    | ok _ =>
      by_cases hfolder : kind = .folder ∨ rel = []
      · simp only [if_pos hfolder]
        cases s.disk.list (c.sourcePath rel) <;> rfl
      · simp only [if_neg hfolder]

theorem within_failed {r : Report} (hentry : c.entry rel kind s = (.error r, after)) (depth : Nat) :
    c.within (depth + 1) rel kind s = (.error r, after) := by
  rw [within_succ]
  simp only [hentry]

theorem within_listed {place : Place} (hkind : kind = .folder ∨ rel = [])
    (hstat : s.disk.stat (c.sourcePath rel) = .ok place) (hf : s.disk.isFolderAt place)
    (hentry : c.entry rel kind s = (.ok (), after)) (depth : Nat) :
    c.within (depth + 1) rel kind s = walkEach (c.within depth) rel (after.disk.entries place) (.ok (), after) := by
  rw [within_succ]
  simp only [hentry, if_pos hkind, Disk.list_of_stat hstat hf]

theorem within_leaf (c : TreeCopy) (depth : Nat) (hkind : kind ≠ .folder) (hne : rel ≠ []) (s : Session) :
    c.within (depth + 1) rel kind s = c.entry rel kind s := by
  rw [within_succ]
  simp only [hkind, hne, or_self, if_false]
  split
  · rename_i heq
    exact heq.symm
  · rename_i heq
    exact heq.symm

-- ---------------------------------------------------------------------------
-- What every entry keeps
-- ---------------------------------------------------------------------------

theorem entry_keeps (hfolder : kind = .folder → P (s.disk.makeFolders (c.targetPath rel)).2)
    (hfile : kind = .other → P (s.disk.copyFile (c.sourcePath rel) (c.targetPath rel) c.durability).2)
    (h : P s.disk) : P (c.entry rel kind s).2.disk := by
  unfold entry
  cases kind with
  | folder =>
    have hmade := hfolder rfl
    simp only
    split
    · rename_i heq
      simpa [heq] using hmade
    · rename_i heq
      simpa [heq] using hmade
  | link => exact h
  | other =>
    have hcopied := hfile rfl
    simp only
    split
    · rename_i heq
      simpa [heq] using hcopied
    · rename_i heq
      simpa [heq] using hcopied

/-- The entries are made one after the other. -/
inductive Made (c : TreeCopy) : List (List Name × EntryKind) → Disk → Disk → Prop
  | nil (d : Disk) : Made c [] d d
  | cons {rel : List Name} {kind : EntryKind} {visits : List (List Name × EntryKind)} {s : Session} {d : Disk} :
      Made c visits (c.entry rel kind s).2.disk d → Made c ((rel, kind) :: visits) s.disk d

theorem Made.append (h : c.Made visits d d') (h' : c.Made later d' d'') : c.Made (visits ++ later) d d'' := by
  induction h with
  | nil d => exact h'
  | cons _ ih => exact .cons (ih h')

theorem Made.keeps (h : c.Made visits d d')
    (hentry : ∀ v ∈ visits, ∀ s, P s.disk → P (c.entry v.1 v.2 s).2.disk) (hd : P d) : P d' := by
  induction h with
  | nil d => exact hd
  | @cons rel kind visits s d _ ih =>
    exact ih (fun v hv => hentry v (List.mem_cons_of_mem _ hv)) (hentry (rel, kind) List.mem_cons_self s hd)

theorem children_made (visited : List Name × EntryKind → Prop) (hdistinct : (items.map Prod.fst).Nodup)
    (hentry : ∀ v, visited v → ∀ s, P s.disk → P (c.entry v.1 v.2 s).2.disk)
    (hwalk : ∀ item ∈ items, ∀ s, P s.disk →
      ∃ visits, c.Made visits s.disk (walk (rel ++ [item.1]) item.2 s).2.disk ∧ (visits.map Prod.fst).Nodup ∧
        ∀ v ∈ visits, visited v ∧ rel ++ [item.1] <+: v.1)
    (result : Except Report Unit × Session) (hresult : P result.2.disk) :
    ∃ visits, c.Made visits result.2.disk (walkEach walk rel items result).2.disk ∧ (visits.map Prod.fst).Nodup ∧
      ∀ v ∈ visits, visited v ∧ ∃ item ∈ items, rel ++ [item.1] <+: v.1 := by
  induction items generalizing result with
  | nil => exact ⟨[], .nil _, by simp, by simp⟩
  | cons item items ih =>
    obtain ⟨hitem, hdistinct⟩ := List.nodup_cons.mp hdistinct
    have hrest := ih hdistinct fun other hother => hwalk other (List.mem_cons_of_mem item hother)
    rcases result with ⟨r | _, s⟩
    · rw [walkEach_error]
      exact ⟨[], .nil _, by simp, by simp⟩
    · rw [walkEach_cons]
      obtain ⟨first, hfirst, hdistinct, hbelow⟩ := hwalk item List.mem_cons_self s hresult
      have hkept := hfirst.keeps (fun v hv => hentry v (hbelow v hv).1) hresult
      obtain ⟨later, hlater, hdistinct', hbelow'⟩ := hrest (walk (rel ++ [item.1]) item.2 s) hkept
      refine ⟨first ++ later, hfirst.append hlater, ?_, fun v hv => ?_⟩
      · rw [List.map_append]
        refine List.nodup_append.mpr ⟨hdistinct, hdistinct', fun rel₁ hrel₁ rel₂ hrel₂ heq => ?_⟩
        obtain ⟨v, hv, rfl⟩ := List.mem_map.mp hrel₁
        obtain ⟨v', hv', rfl⟩ := List.mem_map.mp hrel₂
        obtain ⟨other, hother, hp⟩ := (hbelow' v' hv').2
        -- What is below two children of one folder is below one child.
        have hsame := List.prefix_of_prefix_length_le (hbelow v hv).2 (heq ▸ hp) (by simp)
        have hname : item.1 = other.1 := by simpa using hsame
        exact hitem (hname ▸ List.mem_map_of_mem hother)
      · rcases List.mem_append.mp hv with hv | hv
        · exact ⟨(hbelow v hv).1, item, List.mem_cons_self, (hbelow v hv).2⟩
        · obtain ⟨other, hother, hp⟩ := (hbelow' v hv).2
          exact ⟨(hbelow' v hv).1, other, List.mem_cons_of_mem item hother, hp⟩

/-- The walk makes entries one after the other, and comes to none of them twice. -/
theorem within_made (visits : List Name → EntryKind → Prop)
    (hlist : ∀ rel kind d d' place names, visits rel kind → kind = .folder ∨ rel = [] → P d → P d' →
      d.list (c.sourcePath rel) = .ok (place, names) →
        ∀ n ∈ d'.names place, visits (rel ++ [n]) (d'.kindAt (place ++ [n])))
    (hentry : ∀ rel kind s, visits rel kind → P s.disk → P (c.entry rel kind s).2.disk)
    (depth : Nat) (hvisit : visits rel kind) (h : P s.disk) :
    ∃ made, c.Made made s.disk (c.within depth rel kind s).2.disk ∧ (made.map Prod.fst).Nodup ∧
      ∀ v ∈ made, visits v.1 v.2 ∧ rel <+: v.1 := by
  induction depth generalizing rel kind s with
  | zero => exact ⟨[], .nil _, by simp, by simp⟩
  | succ depth ih =>
    have hmade := hentry rel kind s hvisit h
    have hself (d : Disk) (hd : (c.entry rel kind s).2.disk = d) : ∃ made, c.Made made s.disk d ∧
        (made.map Prod.fst).Nodup ∧ ∀ v ∈ made, visits v.1 v.2 ∧ rel <+: v.1 :=
      ⟨[(rel, kind)], .cons (hd ▸ .nil _), by simp, by simpa using hvisit⟩
    rw [within_succ]
    split
    · rename_i heq
      exact hself _ (by rw [heq])
    rename_i after heq
    rw [heq] at hmade hself
    split
    · rename_i hfolder
      split
      · exact hself _ rfl
      rename_i place names hopened
      have hnames := hlist rel kind _ _ place names hvisit hfolder h hmade hopened
      obtain ⟨below, hbelow, hdistinct, hvisits⟩ := children_made (fun v => visits v.1 v.2)
        (Disk.map_fst_entries after.disk place ▸ Disk.nodup_names after.disk place)
        (fun v hv s hs => hentry v.1 v.2 s hv hs)
        (fun item hitem s hs => by
          obtain ⟨n, hn, rfl⟩ := List.mem_map.mp hitem
          exact ih (hnames n hn) hs) (.ok (), after) hmade
      have hafter : (c.entry rel kind s).2.disk = after.disk := by rw [heq]
      refine ⟨(rel, kind) :: below, .cons (hafter ▸ hbelow), ?_, fun v hv => ?_⟩
      · rw [List.map_cons, List.nodup_cons]
        refine ⟨fun hmem => ?_, hdistinct⟩
        obtain ⟨v, hv, heq⟩ := List.mem_map.mp hmem
        obtain ⟨item, -, hp⟩ := (hvisits v hv).2
        rw [heq] at hp
        exact absurd hp.length_le (by simp)
      · rcases List.mem_cons.mp hv with rfl | hv
        · exact ⟨hvisit, List.prefix_rfl⟩
        · obtain ⟨hvisit, item, -, hp⟩ := hvisits v hv
          exact ⟨hvisit, (List.prefix_append _ _).trans hp⟩
    · exact hself _ rfl

/-- What a disk keeps while the visited entries are made, it keeps over the whole walk. -/
theorem within_keeps (visits : List Name → EntryKind → Prop)
    (hlist : ∀ rel kind d d' place names, visits rel kind → kind = .folder ∨ rel = [] → P d → P d' →
      d.list (c.sourcePath rel) = .ok (place, names) →
        ∀ n ∈ d'.names place, visits (rel ++ [n]) (d'.kindAt (place ++ [n])))
    (hentry : ∀ rel kind s, visits rel kind → P s.disk → P (c.entry rel kind s).2.disk)
    (depth : Nat) (hvisit : visits rel kind) (h : P s.disk) : P (c.within depth rel kind s).2.disk := by
  obtain ⟨made, hmade, -, hvisits⟩ := within_made visits hlist hentry depth hvisit h
  exact hmade.keeps (fun v hv s hs => hentry v.1 v.2 s (hvisits v hv).1 hs) h

theorem run_walks (c : TreeCopy) (s : Session) : (c.run s).2.disk = s.disk ∨
    s.disk.isFolder c.src = true ∧ s.disk.there c.dst = false ∧
      ∃ kind, kind ≠ .other ∧ (c.run s).2.disk = (c.within pathLimit [] kind s).2.disk := by
  unfold run
  split
  · exact .inl rfl
  rename_i hsrc
  split
  · exact .inl rfl
  rename_i hthere
  obtain ⟨place, hl, hkind⟩ := Disk.kindAt_of_isFolder (by simpa using hsrc)
  refine .inr ⟨by simpa using hsrc, by simpa using hthere, _, hkind, ?_⟩
  simp only [hl]
  split
  · rename_i heq
    rw [heq]
  · rename_i heq
    rw [heq]
    rfl

theorem run_keeps (h : P s.disk)
    (hwithin : s.disk.there c.dst = false → ∀ kind, kind ≠ .other → P (c.within pathLimit [] kind s).2.disk) :
    P (c.run s).2.disk := by
  rcases c.run_walks s with hsame | ⟨-, hthere, kind, hkind, hwalk⟩
  · rwa [hsame]
  · rw [hwalk]
    exact hwithin hthere kind hkind

theorem run_made (c : TreeCopy) (s : Session) :
    ∃ made, c.Made made s.disk (c.run s).2.disk ∧ (made.map Prod.fst).Nodup := by
  rcases c.run_walks s with hsame | ⟨-, -, kind, -, hwalk⟩
  · exact ⟨[], hsame ▸ .nil _, List.nodup_nil⟩
  · obtain ⟨made, hmade, hdistinct, -⟩ := within_made (c := c) (P := fun _ => True) (s := s) (fun _ _ => True)
      (fun _ _ _ _ _ _ _ _ _ _ _ _ _ => trivial) (fun _ _ _ _ _ => trivial) pathLimit trivial trivial
    exact ⟨made, hwalk ▸ hmade, hdistinct⟩

theorem within_kept (c : TreeCopy) (depth : Nat) (rel : List Name) (kind : EntryKind) (s : Session) :
    s.disk.Kept (c.within depth rel kind s).2.disk := by
  refine within_keeps (fun _ _ => True) (fun _ _ _ _ _ _ _ _ _ _ _ _ _ => trivial) ?_ depth trivial
    (Disk.Within.refl _).kept
  intro rel kind s' _ hs
  refine entry_keeps (fun _ => hs.trans (Disk.within_makeFolders _ _).kept) (fun _ => ?_) hs
  refine Disk.copyFile_keeps (fun place d ho => ?_) hs
  have ho := hs.trans (Disk.kept_openWrite ho)
  exact ⟨ho, fun bytes d' ha => ho.trans (Disk.kept_append ha)⟩

theorem run_kept (c : TreeCopy) (s : Session) : s.disk.Kept (c.run s).2.disk :=
  run_keeps (Disk.Within.refl _).kept fun _ kind _ => within_kept c pathLimit [] kind s

theorem within_grows (root : Place) (hd : s.disk.WellFormed) (hkind : kind ≠ .other)
    (hfolders : ∀ rel, (∀ n ∈ rel, n.IsPlain) → ∀ d, Disk.Grown root s.disk d →
      Disk.Grown root s.disk (d.makeFolders (c.targetPath rel)).2)
    (hopen : ∀ rel, (∀ n ∈ rel, n.IsPlain) → rel ≠ [] → ∀ d, Disk.Grown root s.disk d → ∀ place d',
      d.openWrite (c.targetPath rel) { truncate := true } = .ok (place, d') →
        Disk.Grown root s.disk d' ∧ s.disk.item? place = none) :
    Disk.Grown root s.disk (c.within pathLimit [] kind s).2.disk := by
  -- The root is not copied as a file, so the target of a file has a parent of its own.
  refine within_keeps (fun rel kind => (∀ n ∈ rel, n.IsPlain) ∧ (rel = [] → kind ≠ .other)) ?_ ?_ _
    ⟨by simp, fun _ => hkind⟩ (.refl hd _)
  · intro rel kind d d' place names hvisit _ _ hg _ n hn
    refine ⟨fun m hm => ?_, by simp⟩
    rcases List.mem_append.mp hm with hm | hm
    · exact hvisit.1 m hm
    · rw [List.mem_singleton.mp hm]
      exact hg.tree.plain_of_mem_names hn
  · intro rel kind s' hvisit hg
    refine entry_keeps (fun _ => hfolders rel hvisit.1 _ hg) (fun hother => ?_) hg
    refine Disk.copyFile_keeps (fun place d ho => ?_) hg
    obtain ⟨hg', hnew⟩ := hopen rel hvisit.1 (fun hnil => hvisit.2 hnil hother) _ hg place d ho
    exact ⟨hg', fun bytes d' ha => hg'.append hnew ha⟩

/-- All that a copy makes stands at the brink of its destination or beyond it. -/
theorem run_grown {home : Place} {before after : List Step} {n : Name}
    (hbrink : s.disk.Brink (s.disk.start c.dst) before n home) (hbare : c.dst.bare = before ++ .down n :: after)
    (hup : .up ∉ after) : Disk.Grown (home ++ [n]) s.disk (c.run s).2.disk := by
  have htarget {rel : List Name} (hrel : ∀ n ∈ rel, n.IsPlain) : (c.targetPath rel).bare =
      before ++ .down n :: (after ++ rel.map .down) := by
    rw [targetPath_eq hrel, Path.bare_foldl_join _ hrel, hbare]
    simp
  have hstart {rel : List Name} (hrel : ∀ n ∈ rel, n.IsPlain) :
      s.disk.start (c.targetPath rel) = s.disk.start c.dst := by
    rw [targetPath_eq hrel, Disk.start_foldl_join _ _ hrel]
  have hlevel (rel : List Name) : .up ∉ after ++ rel.map .down := by simpa using hup
  refine run_keeps (.refl hbrink.tree _) fun _ kind hkind => within_grows (home ++ [n]) hbrink.tree hkind ?_ ?_
  · intro rel hrel d hg
    exact (hbrink.makeFolders hg (hstart hrel) (htarget hrel ▸ List.prefix_rfl) (hlevel rel)).1
  · intro rel hrel hrelne d hg place d' ho
    exact hbrink.openWrite hg (hstart hrel) (htarget hrel) (by simp [hrelne]) (hlevel rel) ho

theorem run_within (c : TreeCopy) (s : Session) (hd : s.disk.WellFormed) (hne : c.dst ≠ [])
    (hdst : s.disk.Forthright c.dst) : s.disk.Within (c.run s).2.disk := by
  obtain ⟨before, rest, home, hbare, hup, hr, hf⟩ := hdst
  rcases Disk.exists_brink hd hr hf hup with ⟨place, hr, hf⟩ | ⟨more, n, after, home, rfl, hbrink⟩
  · rw [← hbare] at hr
    refine run_keeps (.refl _) fun hthere kind hkind => (within_grows [] hd hkind ?_ ?_).within
    · exact fun rel _ d hg => hg.trans (Disk.grown_makeFolders hg.tree _) List.prefix_rfl
    · intro rel hrel _ d _ _ _ ho
      have hc := Disk.checkPath_of_openWrite ho
      rw [targetPath_eq hrel] at hc
      exact absurd (Disk.there_of_route (Disk.checkPath_of_foldl_join hrel hne hc) hr hf) (by simp [hthere])
  · rw [← List.append_assoc] at hbare
    exact (run_grown hbrink hbare fun h => hup (by simp [h])).within

end TreeCopy

-- ---------------------------------------------------------------------------
-- The whole copy
-- ---------------------------------------------------------------------------

namespace Session

/-- No entry goes, no link changes and no file turns into anything else; and no byte is lost if the
destination has a name and, up to its last `..`, leads to a folder. -/
theorem copyTree_keeps (s : Session) (src dst : Path) (durability : Durability) (hd : s.disk.WellFormed) :
    s.disk.Kept (s.copyTree src dst durability).2.disk ∧
      (dst ≠ [] → s.disk.Forthright dst → s.disk.Within (s.copyTree src dst durability).2.disk) :=
  ⟨TreeCopy.run_kept _ s, TreeCopy.run_within ⟨src, dst, durability⟩ s hd⟩

def twoFolders : Session where
  world := { disk := {
    items := [(["src".toList], .folder 0o755), (["src".toList, ['f']], .leaf 0),
      (["old".toList], .folder 0o755), (["old".toList, ['f']], .leaf 1), (["src".toList, ['l']], .leaf 2)]
    nodes := [(0, .file 0o644 [1]), (1, .file 0o644 [2]), (2, .link "../old/f".toList)]
    cwd := [] } }

theorem twoFolders_keeps : twoFolders.disk.WellFormed ∧
    twoFolders.disk.Forthright "old/../m/n".toList ∧
    (twoFolders.copyTree "src".toList "old/../m/n".toList .full).2.disk.node? [['m'], ['n'], ['f']] =
      some (.file 0o644 [1]) ∧
    twoFolders.disk.Kept (twoFolders.copyTree "src".toList "old/../m/n".toList .full).2.disk ∧
    twoFolders.disk.Within (twoFolders.copyTree "src".toList "old/../m/n".toList .full).2.disk := by
  have hd : twoFolders.disk.WellFormed := .of_items (by decide)
  have hdst : twoFolders.disk.Forthright "old/../m/n".toList :=
    ⟨[.down "old".toList, .up], [.down ['m'], .down ['n']], [], by decide, by decide,
      Disk.walk_found.mp (by decide), by decide⟩
  obtain ⟨hkept, hwithin⟩ := copyTree_keeps twoFolders "src".toList "old/../m/n".toList .full hd
  exact ⟨hd, hdst, by decide +kernel, hkept, hwithin (by decide) hdst⟩

/-- The destination is not there, and a folder made on the way brings it into being. -/
theorem copyTree_overwrites : twoFolders.disk.there "m/../old".toList = false ∧
    twoFolders.disk.node? ["old".toList, ['f']] = some (.file 0o644 [2]) ∧
    (twoFolders.copyTree "src".toList "m/../old".toList .full).1.isOk = true ∧
    (twoFolders.copyTree "src".toList "m/../old".toList .full).2.disk.node? ["old".toList, ['f']] =
      some (.file 0o644 [1]) := by
  decide +kernel

end Session

end SafeFiles
