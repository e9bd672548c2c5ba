import SafeFiles.Proofs.Disk.EntryLaws
import SafeFiles.Proofs.TempNameLaws

/-!
# Paths with names joined to them

Joining plain names to a path one after the other gives a path that takes the
steps of the first and then goes down by the names. It leads to the entry of that
place below a folder, whatever the spelling of the path to the folder is.
-/

namespace SafeFiles

namespace Path

variable {p : Path} {n : Name} {rel : List Name}

theorem join_append_slash (p : Path) {t : Text} (ht : t ≠ []) (habs : isAbsolute t = false)
    (hend : endsInSlash t = false) (hn : n.IsPlain) : p.join (t ++ '/' :: n) = (p.join t).join n := by
  obtain ⟨between, hjoin⟩ := exists_join_eq p
  have hwhole : isAbsolute (t ++ '/' :: n) = false := by
    obtain ⟨c, rest, rfl⟩ := List.exists_cons_of_ne_nil ht
    exact habs
  have hlast : endsInSlash (p ++ (between ++ t)) = false := by
    rw [← List.append_assoc, endsInSlash_append _ ht, hend]
  rw [hjoin _ hwhole, hjoin _ habs, join, if_neg (by simp [not_isAbsolute_of_plain hn]),
    if_neg (by simp [hlast, ht])]
  simp

theorem bare_foldl_join (p : Path) (h : ∀ n ∈ rel, n.IsPlain) :
    (rel.foldl join p).bare = p.bare ++ rel.map .down := by
  induction rel generalizing p with
  | nil => simp
  | cons n rel ih =>
    have hn := h n List.mem_cons_self
    rw [List.foldl_cons, ih _ fun m hm => h m (List.mem_cons_of_mem n hm),
      bare_join p (not_isAbsolute_of_plain hn), bare_of_plain hn]
    simp

theorem isAbsolute_foldl_join (p : Path) (h : ∀ n ∈ rel, n.IsPlain) :
    (rel.foldl join p).isAbsolute = p.isAbsolute := by
  induction rel generalizing p with
  | nil => rfl
  | cons n rel ih =>
    rw [List.foldl_cons, ih _ fun m hm => h m (List.mem_cons_of_mem n hm),
      isAbsolute_join p (not_isAbsolute_of_plain (h n List.mem_cons_self))]

theorem steps_foldl_join (p : Path) (h : ∀ m ∈ rel ++ [n], m.IsPlain) :
    ((rel ++ [n]).foldl join p).steps = p.bare ++ rel.map .down ++ [.down n] := by
  have hrel : ∀ m ∈ rel, m.IsPlain := fun m hm => h m (by simp [hm])
  rw [List.foldl_append, List.foldl_cons, List.foldl_nil, steps_join _ (h n (by simp)), bare_foldl_join p hrel]

theorem hasNul_foldl_join (h : ∀ n ∈ rel, n.IsPlain) (hp : p.hasNul = false) :
    (rel.foldl join p).hasNul = false := by
  induction rel generalizing p with
  | nil => exact hp
  | cons n rel ih =>
    refine ih (fun m hm => h m (List.mem_cons_of_mem n hm)) (hasNul_join hp ?_)
    simpa [hasNul] using (h n List.mem_cons_self).2.2.2.2

theorem foldl_join_ne_nil (h : ∀ n ∈ rel, n.IsPlain) (hp : p ≠ []) : rel.foldl join p ≠ [] := by
  induction rel generalizing p with
  | nil => exact hp
  | cons n rel ih =>
    exact ih (fun m hm => h m (List.mem_cons_of_mem n hm)) (join_ne_nil (h n List.mem_cons_self).1)

theorem length_le_utf8Size_foldl_join (p : Path) (h : ∀ n ∈ rel, n.IsPlain) :
    Text.utf8Size p + rel.length ≤ Text.utf8Size (rel.foldl join p) := by
  induction rel generalizing p with
  | nil => simp
  | cons n rel ih =>
    have hn := h n List.mem_cons_self
    have hrest := ih (p.join n) fun m hm => h m (List.mem_cons_of_mem n hm)
    obtain ⟨between, hjoin⟩ := exists_join_eq p
    have hname := Text.utf8Size_pos hn.1
    rw [hjoin n (not_isAbsolute_of_plain hn), Text.utf8Size_append, Text.utf8Size_append] at hrest
    rw [List.foldl_cons, List.length_cons, hjoin n (not_isAbsolute_of_plain hn)]
    omega

end Path

namespace Disk

variable {d : Disk} {here place : Place} {p : Path} {rel : List Name} {n : Name} {steps : List Step} {final : Final}

theorem start_foldl_join (d : Disk) (p : Path) (h : ∀ n ∈ rel, n.IsPlain) :
    d.start (rel.foldl Path.join p) = d.start p := by
  rw [Disk.start, Disk.start, Path.isAbsolute_foldl_join p h]

theorem checkPath_foldl_join (h : ∀ n ∈ rel, n.IsPlain) (hc : checkPath p = .ok ())
    (hlen : Text.utf8Size (rel.foldl Path.join p) < pathLimit) : checkPath (rel.foldl Path.join p) = .ok () := by
  obtain ⟨hnul, hne, -⟩ := checkPath_ok hc
  exact checkPath_of (Path.hasNul_foldl_join h hnul) (Path.foldl_join_ne_nil h hne) hlen

theorem checkPath_of_foldl_join (h : ∀ n ∈ rel, n.IsPlain) (hne : p ≠ [])
    (hc : checkPath (rel.foldl Path.join p) = .ok ()) : checkPath p = .ok () := by
  induction rel generalizing p with
  | nil => exact hc
  | cons n rel ih =>
    have hn := h n List.mem_cons_self
    have hjoin := ih (fun m hm => h m (List.mem_cons_of_mem n hm)) (Path.join_ne_nil hn.1) hc
    obtain ⟨hnul, -, hlen⟩ := checkPath_ok hjoin
    obtain ⟨between, hjoined⟩ := Path.exists_join_eq p
    rw [hjoined n (Path.not_isAbsolute_of_plain hn), List.append_assoc] at hnul hlen
    rw [Text.utf8Size_append] at hlen
    refine checkPath_of ?_ hne (by omega)
    simp only [Path.hasNul, List.contains_eq_mem, List.mem_append, decide_eq_false_iff_not, not_or] at hnul ⊢
    exact hnul.1

theorem Route.down (hd : d.WellFormed) (h : d.Route .follow linkLimit here steps place) (hf : d.isFolderAt place)
    (hrel : d.isFolderAt (place ++ rel)) :
    d.Route .follow linkLimit here (steps ++ rel.map .down) (place ++ rel) := by
  by_cases hnil : rel = []
  · simpa [hnil] using h
  · refine h.append hf (by simpa using hnil) (by simp) fun links => ?_
    have hdown : d.Route .follow links place (rel.map .down ++ []) (place ++ rel) := .enter hd rel hrel .done
    simpa using hdown

/-- Names joined to the path of a folder lead to what stands below it, unless that is a link. -/
theorem stat_foldl_join (hd : d.WellFormed) (hc : checkPath p = .ok ())
    (hr : d.Route .follow linkLimit (d.start p) p.steps place) (hf : d.isFolderAt place)
    (hi : (d.item? (place ++ rel)).isSome) (hlink : d.isLinkAt (place ++ rel) = false)
    (hlen : Text.utf8Size (rel.foldl Path.join p) < pathLimit) :
    d.stat (rel.foldl Path.join p) = .ok (place ++ rel) := by
  obtain ⟨item, hitem⟩ := Option.isSome_iff_exists.mp hi
  have hplain : ∀ n ∈ rel, n.IsPlain := fun n hn => (hd.names hitem n (by simp [hn])).1
  refine seek_ok.mpr ⟨checkPath_foldl_join hplain hc hlen, ?_, hi⟩
  rw [start_foldl_join _ _ hplain]
  rcases List.eq_nil_or_concat rel with rfl | ⟨init, m, rfl⟩
  · simpa using hr
  · rw [List.concat_eq_append, ← List.append_assoc] at hitem hlink ⊢
    rw [List.concat_eq_append] at hplain
    have hinit : d.isFolderAt (place ++ init) := hd.parents (n := m) (by rw [hitem]; rfl)
    rw [Path.steps_foldl_join _ hplain]
    refine (hr.bare.down hd hf hinit).append hinit (by simp) (by simp) fun _ => ?_
    have hsize := (hd.names hitem m (by simp)).2
    cases item with
    | folder mode => exact .folder (by simp) hsize hitem .done
    | leaf id =>
      refine .leaf hsize hitem fun hl => ?_
      rw [isLinkAt, node?_of_leaf hitem] at hlink
      simp [hl] at hlink

end Disk

end SafeFiles
