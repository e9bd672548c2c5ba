import SafeFiles.Proofs.Tree.ConflictLaws

/-!
# Level by level

The level of a folder is the number of names on its path behind the root. A folder
that fewer names lead to has been listed by the time a level begins (`Stage.nearer`),
so a folder has its turn on a path that is as short as any, and a longer path to it
is left out when its own turn comes.
-/

namespace SafeFiles

namespace Disk

variable {d : Disk} {home place : Place} {rel : List Name}

theorem Passage.isFolderAt (h : d.Passage home rel place) (hhome : d.isFolderAt home) : d.isFolderAt place := by
  cases h with
  | start => exact hhome
  | enter _ _ hfolder => exact hfolder

end Disk

namespace Listing

variable {d : Disk} {extensions : List Text} {root f p : Path} {home place folder : Place} {n : Name}
  {rel : List Name} {l : Listing} {level : Nat} {waiting queue : List Path} {places : List Place}

-- ---------------------------------------------------------------------------
-- The order of the files
-- ---------------------------------------------------------------------------

theorem Queued.length_components_join (hd : d.WellFormed) (hroot : d.stat root = .ok home)
    (h : Queued d extensions root home level f) (hn : n.IsPlain) :
    (f.join n).components.length = root.components.length + level + 1 := by
  obtain ⟨rel, rfl, rfl, hplain⟩ := h.plain hd
  have hne := (Disk.checkPath_ok (Disk.seek_ok.mp hroot).1).2.1
  rw [Path.components_join (Path.foldl_join_ne_nil hplain hne) hn, Path.components_foldl_join hne hplain]
  simp [Nat.add_assoc]

theorem Stage.ordered (hd : d.WellFormed) (hroot : d.stat root = .ok home) (hhome : d.isFolderAt home)
    (h : Stage d extensions root level l waiting) :
    l.files.Pairwise (fun p q => p.components.length ≤ q.components.length) ∧
      ∀ p ∈ l.files, p.components.length ≤ root.components.length + level + 1 := by
  induction h with
  | start => simp
  | @list level l f waiting hstage ih =>
    have hqueued := (hstage.queued hd hroot hhome).1 f List.mem_cons_self
    obtain ⟨-, folder, -, -, -, ⟨-, heq⟩ | ⟨-, heq⟩⟩ := hqueued.addFolder_cases l
    · rw [heq]
      exact ih
    · obtain ⟨hordered, hdepth⟩ := ih
      have hnew : ∀ p ∈ (filesIn d extensions f (d.names folder)).map f.join,
          p.components.length = root.components.length + level + 1 := by
        intro p hp
        obtain ⟨n, hn, rfl⟩ := List.mem_map.mp hp
        exact hqueued.length_components_join hd hroot (hd.plain_of_mem_names (List.mem_filter.mp hn).1)
      rw [heq]
      refine ⟨List.pairwise_append.mpr ⟨hordered, ?_, fun p hp q hq => hnew q hq ▸ hdepth p hp⟩, fun p hp => ?_⟩
      · exact List.pairwise_of_forall_mem_list fun p hp q hq => (hnew p hp).trans_le (hnew q hq).ge
      · exact (List.mem_append.mp hp).elim (hdepth p) fun hp => (hnew p hp).le
  | descend _ _ ih => exact ⟨ih.1, fun p hp => Nat.le_succ_of_le (ih.2 p hp)⟩

-- ---------------------------------------------------------------------------
-- Folders that are nearer
-- ---------------------------------------------------------------------------

/-- Where no more names lead than the level has, has been listed, or it is of this very level and waits. -/
theorem Stage.nearer (hd : d.WellFormed) (hroot : d.stat root = .ok home) (hhome : d.isFolderAt home)
    (hlimits : ∀ p, Formed d extensions root p → d.WithinLimits p) (h : Stage d extensions root level l waiting)
    (hp : d.Passage home rel place) (hlen : rel.length ≤ level) :
    place.path ∈ l.listed ∨ rel.length = level ∧ ∃ f ∈ waiting, d.stat f = .ok place := by
  induction h generalizing rel place with
  | start =>
    obtain rfl := List.eq_nil_of_length_eq_zero (Nat.le_zero.mp hlen)
    obtain rfl := Disk.Passage.nil_iff.mp hp
    exact .inr ⟨rfl, root, List.mem_cons_self, hroot⟩
  | @list level l f waiting hstage ih =>
    have hqueued := (hstage.queued hd hroot hhome).1 f List.mem_cons_self
    obtain ⟨-, folder, hf, hfolder, -, hcases⟩ := hqueued.addFolder_cases l
    have hkey := key_of_stat hf ((hlimits f hqueued.1).path_lt hf hfolder)
    have hlisted : l.listed ⊆ (addFolder d extensions l f).listed ∧
        folder.path ∈ (addFolder d extensions l f).listed := by
      rcases hcases with ⟨hold, heq⟩ | ⟨-, heq⟩
      · rw [heq]
        exact ⟨List.Subset.refl _, hkey ▸ hold⟩
      · rw [heq, hkey]
        exact ⟨List.subset_append_left _ _, by simp⟩
    rcases ih hp hlen with hold | ⟨hlevel, g, hg, hstat⟩
    · exact .inl (hlisted.1 hold)
    · rcases List.mem_cons.mp hg with rfl | hg
      · obtain rfl : folder = place := by simpa [hf] using hstat
        exact .inl hlisted.2
      · exact .inr ⟨hlevel, g, hg, hstat⟩
  | @descend level l hstage _ ih =>
    have hlisted {rel place} (hp : d.Passage home rel place) (hlen : rel.length ≤ level) : place.path ∈ l.listed :=
      (ih hp hlen).resolve_right (by simp)
    rcases Nat.le_succ_iff.mp hlen with hlen | hlevel
    · exact .inl (hlisted hp hlen)
    · -- The folder that the last name is in has been listed, and so the name has been found.
      obtain ⟨front, n, rfl⟩ := (List.eq_nil_or_concat rel).resolve_left (by rintro rfl; cases hlevel)
      rw [List.concat_eq_append] at hp hlevel ⊢
      obtain ⟨above, habove, hleads, hplace⟩ := Disk.Passage.concat_iff.mp hp
      obtain ⟨places, hcovers⟩ := hstage.covers hd hroot hhome hlimits
      have hmem := (hcovers.listed_iff hd (habove.isFolderAt hhome)).mp (hlisted habove (by simpa using hlevel.le))
      rcases hcovers.closed above hmem n place hleads hplace with hplaces | hwaits
      · exact .inl ((hcovers.listed_iff hd hplace).mpr hplaces)
      · exact .inr ⟨hlevel, by simpa using hwaits⟩

end Listing

namespace Disk

variable {d : Disk} {root : Path} {extensions : List Text} {home : Place}

/-- The files come in the order of their depth below the root, and each is reported on a path that leads to
its folder by as few names as any way from the root does. -/
theorem enumerate_breadth_first (hd : d.WellFormed) (hroot : d.stat root = .ok home) (hhome : d.isFolderAt home) :
    (d.enumerate root extensions).Pairwise (fun p q => p.components.length ≤ q.components.length) ∧
      ((∀ p, Listing.Formed d extensions root p → d.WithinLimits p) → ∀ p ∈ d.enumerate root extensions,
        ∃ rel n folder, p = (rel ++ [n]).foldl Path.join root ∧
          p.components = root.components ++ (rel ++ [n]).map .name ∧ d.standing? p = some (folder, n) ∧
            d.Passage home rel folder ∧ ∀ rel', d.Passage home rel' folder → rel.length ≤ rel'.length) := by
  obtain ⟨-, level, hlast⟩ := Listing.exists_last_stage extensions hd hroot hhome
  refine ⟨(hlast.ordered hd hroot hhome).1, fun hlimits p hp => ?_⟩
  obtain ⟨f, folder, n, ⟨level, l, waiting, hstage, hnew⟩, hf, hn, rfl, -⟩ :=
    (Listing.mem_enumerate hd hroot hhome).mp hp
  obtain ⟨hformed, rel, place, rfl, rfl, hstat, hfolder, hpassage⟩ :=
    (hstage.queued hd hroot hhome).1 f List.mem_cons_self
  obtain rfl : place = folder := by simpa [hstat] using hf
  have hlen := (hlimits _ hformed).path_lt hf hfolder
  have hplain := hd.plain_of_mem_names hn
  have hne := (checkPath_ok (seek_ok.mp hroot).1).2.1
  have hnames : ∀ m ∈ rel ++ [n], m.IsPlain := by
    simpa [or_imp, forall_and] using ⟨hpassage.plain hd, hplain⟩
  refine ⟨rel, n, place, by simp, ?_, standing?_join hf hfolder hlen hplain, hpassage, fun rel' hp' => ?_⟩
  · rw [← Path.components_foldl_join hne hnames]
    simp
  · by_contra hshort
    rw [Listing.key_of_stat hf hlen] at hnew
    rcases hstage.nearer hd hroot hhome hlimits hp' (by omega) with hold | ⟨hlevel, -⟩
    · exact hnew hold
    · omega

/-- The file is reported where the link leads, one level above the plain way to its folder. -/
theorem enumerate_breadth_first_detour :
    detour.WellFormed ∧ detour.stat ['a'] = .ok [['a']] ∧ detour.isFolderAt [['a']] ∧
    (∀ p, Listing.Formed detour [] ['a'] p → detour.WithinLimits p) ∧
    "a/l/f".toList ∈ detour.enumerate ['a'] [] ∧
    ∃ rel n folder, "a/l/f".toList = (rel ++ [n]).foldl Path.join ['a'] ∧
      Path.components "a/l/f".toList = Path.components ['a'] ++ (rel ++ [n]).map .name ∧
        detour.standing? "a/l/f".toList = some (folder, n) ∧ detour.Passage [['a']] rel folder ∧
          ∀ rel', detour.Passage [['a']] rel' folder → rel.length ≤ rel'.length := by
  have hd : detour.WellFormed := .of_items (by decide +kernel)
  have hroot : detour.stat ['a'] = .ok [['a']] := by decide +kernel
  have hhome : detour.isFolderAt [['a']] := by decide +kernel
  have hlimits : ∀ p, Listing.Formed detour [] ['a'] p → detour.WithinLimits p :=
    Listing.withinLimits_of_states 6 (by decide +kernel) (by decide +kernel)
  have hmem : "a/l/f".toList ∈ detour.enumerate ['a'] [] := by decide +kernel
  exact ⟨hd, hroot, hhome, hlimits, hmem, (enumerate_breadth_first hd hroot hhome).2 hlimits _ hmem⟩

end Disk

end SafeFiles
