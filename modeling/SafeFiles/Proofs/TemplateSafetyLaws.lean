import SafeFiles.Proofs.SecureWriteLaws

/-!
# Templates spare files

Whether anything stands in the way of a template is asked before the missing folders
are made, and the rename takes the path anew once they are. A forthright path leads
to no old entry then that it did not lead to before (`Disk.Forthright.route_before`),
so no file can be replaced that was not seen. With a `..` behind a missing name the
path leads nowhere when it is asked, and later perhaps to a file.
-/

namespace SafeFiles

namespace Disk

variable {d d' : Disk} {p parent : Path} {folder place mid q : Place} {n : Name} {front post : List Step}

/-- Where a forthright path leads to an old entry once its folders are made, it led there before. -/
theorem Forthright.route_before (hp : d.Forthright p) (hd : d.WellFormed) (hparent : p.parent? = some parent)
    (hne : parent ≠ []) (hcut : p.bare = front ++ .down n :: post)
    (hr : (d.makeFolders parent).2.Route .follow linkLimit (d.start p) front mid)
    (hf : (d.makeFolders parent).2.isFolderAt mid) (hold : (d.item? (mid ++ [n])).isSome) :
    d.Route .follow linkLimit (d.start p) front mid := by
  obtain ⟨before, rest, home, hbare, hup, hhome, hfolder⟩ := hp
  rcases exists_brink hd hhome hfolder hup with ⟨place, hwhole, -⟩ | ⟨more, c, after, home, rfl, hbrink⟩
  · rw [← hbare] at hwhole
    rwa [makeFolders_of_route hparent hwhole] at hr
  · rw [← List.append_assoc] at hbare
    have hup' : .up ∉ after := fun h => hup (by simp [h])
    obtain ⟨habs, between, hbetween, -⟩ := Path.of_mem_ancestors_parent hparent List.mem_cons_self hne
    obtain ⟨hgrown, -⟩ := hbrink.makeFolders (.refl hd _) (start_eq rfl habs) ⟨between, hbetween.symm.trans hbare⟩ hup'
    rcases hbrink.cut hgrown (hcut.symm.trans hbare) hup' hr hf with ⟨-, -, -, hr'⟩ | ⟨hnone, names, -, rfl⟩
    · exact hr'
    · have hbelow : home ++ [c] <+: home ++ [c] ++ Step.names names ++ [n] :=
        (List.prefix_append _ _).trans (List.prefix_append _ _)
      rw [hd.item?_at_or_below hnone hbelow] at hold
      cases hold

theorem Forthright.there_of_file (hp : d.Forthright p) (hd : d.WellFormed) (hparent : p.parent? = some parent)
    (hne : parent ≠ []) (hf : (d.withParents p).folderOf p = .ok (folder, .name n false))
    (hfile : (d.node? (folder ++ [n])).any Node.isFile) : d.there p = true := by
  have hmade : d.withParents p = (d.makeFolders parent).2 := by simp [withParents, hparent]
  rw [hmade] at hf
  obtain ⟨node, hnode, hnodefile⟩ := (Option.any_eq_true _ _).mp hfile
  obtain ⟨id, hi, rfl⟩ := leaf_of_node? hnode
  have hsome : (d.item? (folder ++ [n])).isSome := by simp [hi]
  obtain ⟨front, hsteps, hr, hfolder⟩ := folderOf_name hf
  rw [Within.start (grown_makeFolders hd parent).cwd] at hr
  have hbefore := hp.route_before hd hparent hne (Path.bare_of_steps false hsteps) hr hfolder hsome
  have hstat : d.stat p = .ok (folder ++ [n]) := by
    refine seek_ok.mpr ⟨(folderOf_ok.mp hf).1, ?_, hsome⟩
    rw [hsteps]
    refine hbefore.append (hd.parents hsome) (by simp) (by simp) fun links => ?_
    refine .leaf (hd.names hi n (by simp)).2 hi fun hlink => ?_
    cases hcase : d.node id <;> simp [hcase, Node.isFile, Node.isLink] at hnodefile hlink
  rw [there, hstat]
  rfl

end Disk

namespace Config

variable {s : Session} {p : Path}

/-- Either the template is refused and nothing changes, or it is written as any configuration is. -/
theorem createTemplate_cases (s : Session) (p : Path) :
    (∃ r, (createTemplate s p).1 = .error r) ∧ (createTemplate s p).2.disk = s.disk ∨
      s.disk.there p = false ∧ s.disk.throughLink p = .ok false ∧
        (createTemplate s p).1 = (writeSecure s.disk p (Text.toUtf8 (template s.world.env))).1 ∧
        (createTemplate s p).2.disk = (writeSecure s.disk p (Text.toUtf8 (template s.world.env))).2 := by
  unfold createTemplate
  split
  · exact .inl ⟨⟨_, rfl⟩, rfl⟩
  rename_i hfree
  split
  · exact .inl ⟨⟨_, rfl⟩, rfl⟩
  · exact .inl ⟨⟨_, rfl⟩, rfl⟩
  rename_i hgate
  refine .inr ⟨by simpa using hfree, hgate, ?_⟩
  split <;> rename_i hwrite <;> rw [hwrite] <;> exact ⟨rfl, rfl⟩

/-- No file is replaced by a template whose path is forthright. By any path it replaces no entry but the one
that the path names once its folders are made, and if it fails, folders are all that it leaves. -/
theorem createTemplate_spares (s : Session) (p : Path) (hd : s.disk.WellFormed) :
    (s.disk.Forthright p → ∀ q, (s.disk.node? q).any Node.isFile = true →
      s.disk.SameAt (createTemplate s p).2.disk q) ∧
    (∀ q, (s.disk.item? q).isSome → ¬ s.disk.SameAt (createTemplate s p).2.disk q →
      s.disk.there p = false ∧ Disk.entry? (s.disk.withParents p) p = some q) ∧
    ((createTemplate s p).1.isOk = false → ∀ q, s.disk.item? q = none →
      ((createTemplate s p).2.disk.item? q).isSome → (createTemplate s p).2.disk.isFolderAt q = true) := by
  rcases createTemplate_cases s p with ⟨-, hsame⟩ | ⟨hfree, -, hresult, hafter⟩
  · rw [hsame]
    exact ⟨fun _ q _ => .refl _ q, fun q _ hnot => absurd (.refl _ q) hnot,
      fun _ q hnone hsome => by simp [hnone] at hsome⟩
  rw [hresult, hafter]
  refine ⟨fun hp q hq => ?_, fun q hq hnot => ⟨hfree, ?_⟩,
    fun hfailed q hnone => writeSecure_error_adds hd hfailed hnone⟩
  · by_contra hnot
    obtain ⟨parent, folder, n, hparent, hne, hf, rfl⟩ := writeSecure_changes hd (Disk.isSome_of_isFile hq) hnot
    simp [hp.there_of_file hd hparent hne hf hq] at hfree
  · obtain ⟨-, folder, n, -, -, hf, rfl⟩ := writeSecure_changes hd hq hnot
    exact Disk.entry?_of_folderOf hf

def aged : Session where
  world := { disk := {
    items := [([['d']], .folder 0o755), (["old".toList], .leaf 0)]
    nodes := [(0, .file 0o644 [1])]
    cwd := [] } }

/-- The first template is written to a new folder, and the second fails because a file is in its way. -/
theorem createTemplate_spares_aged : aged.disk.WellFormed ∧ aged.disk.Forthright "d/../m/x".toList ∧
    aged.disk.SameAt (createTemplate aged "d/../m/x".toList).2.disk ["old".toList] ∧
    (createTemplate aged "old/x".toList).1.isOk = false ∧
    ∀ q, aged.disk.item? q = none → ((createTemplate aged "old/x".toList).2.disk.item? q).isSome →
      (createTemplate aged "old/x".toList).2.disk.isFolderAt q = true := by
  have hd : aged.disk.WellFormed := .of_items (by decide +kernel)
  have hp : aged.disk.Forthright "d/../m/x".toList :=
    ⟨[.down ['d'], .up], [.down ['m'], .down ['x']], [], by decide, by decide, Disk.walk_found.mp (by decide),
      by decide⟩
  have hfailed : (createTemplate aged "old/x".toList).1.isOk = false := by decide +kernel
  exact ⟨hd, hp, (createTemplate_spares aged "d/../m/x".toList hd).1 hp _ (by decide +kernel), hfailed,
    (createTemplate_spares aged "old/x".toList hd).2.2 hfailed⟩

/-- The folder `m` is missing when the path is asked for, and is made before the file is renamed. -/
theorem createTemplate_overwrites : (aged.disk.node? ["old".toList]).any Node.isFile = true ∧
    (createTemplate aged "m/../old".toList).1 = .ok () ∧
    (createTemplate aged "m/../old".toList).2.disk.node? ["old".toList] ≠ aged.disk.node? ["old".toList] := by
  decide +kernel

end Config

end SafeFiles
