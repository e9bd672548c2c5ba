import SafeFiles.Proofs.Disk.EntryLaws

/-!
# What a rename does to a tree

A rename that succeeds has taken the entry at one place, with all that is below
it, to another, or it has done nothing because both names stand for one node
already. A leaf has nothing below it, and takes nothing but its own place.
-/

namespace SafeFiles

namespace Table

variable {κ α : Type} [DecidableEq κ]

theorem get?_filter_keys (t : Table κ α) (keep : κ → Bool) (key : κ) :
    get? (t.filter fun entry => keep entry.1) key = if keep key then get? t key else none := by
  induction t with
  | nil => simp [get?]
  | cons entry rest ih =>
    obtain ⟨k, v⟩ := entry
    by_cases hk : k = key
    · subst hk
      cases hkeep : keep k with
      | true => simp [hkeep, get?]
      | false => simp [hkeep, ih]
    · cases hkeep : keep k with
      | true => simp [hkeep, get?, hk, ih]
      | false => simp [hkeep, get?, hk, ih]

theorem get?_map_keys (t : Table κ α) (f : κ → κ) (key old : κ)
    (h : ∀ entry ∈ t, f entry.1 = key ↔ entry.1 = old) :
    get? (t.map fun entry => (f entry.1, entry.2)) key = get? t old := by
  induction t with
  | nil => rfl
  | cons entry rest ih =>
    have hentry := h entry List.mem_cons_self
    simp only [List.map_cons, get?_cons, hentry, ih fun e he => h e (List.mem_cons_of_mem _ he)]

theorem get?_map_keys_none (t : Table κ α) (f : κ → κ) (key : κ)
    (h : ∀ entry ∈ t, f entry.1 ≠ key) :
    get? (t.map fun entry => (f entry.1, entry.2)) key = none := by
  induction t with
  | nil => rfl
  | cons entry rest ih =>
    simp only [List.map_cons, get?_cons, if_neg (h entry List.mem_cons_self),
      ih fun e he => h e (List.mem_cons_of_mem _ he)]

end Table

namespace Disk

variable {d d' : Disk} {src dst : Path} {a b place q below : Place} {item : Item} {id : NodeId}

-- ---------------------------------------------------------------------------
-- Moving a subtree
-- ---------------------------------------------------------------------------

theorem ne_root_of_apart (h : ¬ a <+: b) : a ≠ [] := by
  rintro rfl
  exact h List.nil_prefix

theorem not_prefix_append (h : ¬ a <+: b) (h' : ¬ b <+: a) : ¬ b <+: a ++ below := fun hb =>
  (List.prefix_or_prefix_of_prefix (List.prefix_append a below) hb).elim h h'

theorem movedPlace_below : movedPlace a b (a ++ below) = b ++ below := by
  simp [movedPlace]

theorem movedPlace_apart (h : ¬ a <+: q) : movedPlace a b q = q := by
  simp [movedPlace, h]

theorem item?_moveItems_below (hab : ¬ a <+: b) (hba : ¬ b <+: a) :
    (d.moveItems a b).item? (b ++ below) = d.item? (a ++ below) := by
  have ha := ne_root_of_apart hab
  have hb := ne_root_of_apart hba
  rw [item?_eq_get? (by simp [hb]), item?_eq_get? (by simp [ha]), moveItems]
  simp only
  rw [Table.get?_map_keys _ _ _ (a ++ below), Table.get?_filter_keys _ fun k => !b.isPrefixOf k]
  · simp [not_prefix_append hab hba]
  · intro entry hmem
    have hkept : ¬ b <+: entry.1 := by
      simpa [← List.isPrefixOf_iff_prefix] using (List.mem_filter.mp hmem).2
    by_cases hk : a <+: entry.1
    · obtain ⟨rest, hrest⟩ := hk
      simp [← hrest, movedPlace_below]
    · rw [movedPlace_apart hk]
      exact ⟨fun h => absurd (h ▸ List.prefix_append b below) hkept,
        fun h => absurd (h ▸ List.prefix_append a below) hk⟩

theorem item?_moveItems_gone (hab : ¬ a <+: b) (hba : ¬ b <+: a) :
    (d.moveItems a b).item? (a ++ below) = none := by
  have ha := ne_root_of_apart hab
  rw [item?_eq_get? (by simp [ha]), moveItems]
  refine Table.get?_map_keys_none _ _ _ fun entry _ => ?_
  by_cases hk : a <+: entry.1
  · obtain ⟨rest, hrest⟩ := hk
    rw [← hrest, movedPlace_below]
    exact fun h => not_prefix_append hab hba ⟨rest, h⟩
  · rw [movedPlace_apart hk]
    exact fun h => hk (h ▸ List.prefix_append a below)

theorem item?_moveItems_other (ha : ¬ a <+: q) (hb : ¬ b <+: q) :
    (d.moveItems a b).item? q = d.item? q := by
  by_cases hq : q = []
  · simp [hq, item?]
  rw [item?_eq_get? hq, item?_eq_get? hq, moveItems]
  simp only
  rw [Table.get?_map_keys _ _ _ q, Table.get?_filter_keys _ fun k => !b.isPrefixOf k]
  · simp [hb]
  · intro entry _
    by_cases hk : a <+: entry.1
    · obtain ⟨rest, hrest⟩ := hk
      rw [← hrest, movedPlace_below]
      exact ⟨fun h => absurd ⟨rest, h⟩ hb, fun h => absurd ⟨rest, h⟩ ha⟩
    · rw [movedPlace_apart hk]

-- ---------------------------------------------------------------------------
-- Renamed entries
-- ---------------------------------------------------------------------------

/-- What stood at `a` and below stands at `b` and below, and the rest is as it was. -/
structure Renamed (a b : Place) (d d' : Disk) : Prop where
  there : ∀ below, d'.item? (b ++ below) = d.item? (a ++ below)
  gone : ∀ below, d'.item? (a ++ below) = none
  others : ∀ q, ¬ a <+: q → ¬ b <+: q → d'.item? q = d.item? q
  nodes : d'.nodes = d.nodes

theorem renamed_moveItems (hab : ¬ a <+: b) (hba : ¬ b <+: a) :
    Renamed a b d (d.moveItems a b) where
  there _ := item?_moveItems_below hab hba
  gone _ := item?_moveItems_gone hab hba
  others _ := item?_moveItems_other
  nodes := rfl

theorem Renamed.node (h : Renamed a b d d') (id : NodeId) : d'.node id = d.node id := by
  simp [Disk.node, h.nodes]

theorem Renamed.node? (h : Renamed a b d d') : d'.node? (b ++ below) = d.node? (a ++ below) := by
  unfold Disk.node?
  rw [h.there]
  split <;> simp [h.node]

/-- A leaf that is renamed takes its own place along, and nothing else. -/
theorem Renamed.item?_leaf (h : Renamed a b d d') (hd : d.WellFormed)
    (ha : d.item? a = some (.leaf id)) (hb : ∀ below, below ≠ [] → d.item? (b ++ below) = none)
    (q : Place) :
    d'.item? q = if b = q then some (.leaf id) else if a = q then none else d.item? q := by
  have hfa := isFolderAt_of_leaf ha
  by_cases hbq : b <+: q
  · obtain ⟨below, rfl⟩ := hbq
    rw [h.there]
    by_cases hnil : below = []
    · simp [hnil, ha]
    · rw [hd.item?_below hfa hnil, if_neg (by simpa using hnil), hb below hnil, ite_self]
  have hb' : b ≠ q := by rintro rfl; exact hbq List.prefix_rfl
  rw [if_neg hb']
  by_cases haq : a <+: q
  · obtain ⟨below, rfl⟩ := haq
    rw [h.gone]
    by_cases hnil : below = []
    · simp [hnil]
    · rw [hd.item?_below hfa hnil, ite_self]
  · have ha' : a ≠ q := by rintro rfl; exact haq List.prefix_rfl
    rw [if_neg ha', h.others q haq hbq]

theorem cwd_moveItems_of_leaf (hd : d.WellFormed) (ha : d.item? a = some (.leaf id)) :
    (d.moveItems a b).cwd = d.cwd := by
  unfold moveItems
  simp only
  split
  · rename_i hcwd
    exact movedPlace_apart (hd.not_prefix_of_folder hcwd (isFolderAt_of_leaf ha))
  · rfl

-- ---------------------------------------------------------------------------
-- Renames that succeed
-- ---------------------------------------------------------------------------

/-- Nothing has happened, and there was nothing to do: both places hold one entry, or one node. -/
def AlreadyThere (d : Disk) (a b : Place) : Prop :=
  a = b ∨ ∃ id, d.item? a = some (.leaf id) ∧ d.item? b = some (.leaf id)

theorem renameAt_ok (hi : d.item? a = some item) (h : d.renameAt a b item (d.item? b) = .ok d') :
    d' = d ∧ d.AlreadyThere a b ∨
      d' = d.moveItems a b ∧ a ≠ b ∧ (d.isFolderAt b = false ∨ d.names b = []) := by
  cases hr : d.item? b with
  | none =>
    have hab : a ≠ b := by rintro rfl; simp [hi] at hr
    have hb : d.isFolderAt b = false := by simp [isFolderAt, hr]
    rw [hr] at h
    cases item <;> cases h <;> exact .inr ⟨rfl, hab, .inl hb⟩
  | some replaced =>
    rw [hr] at h
    cases item with
    | folder mode =>
      cases replaced with
      | leaf id => cases h
      | folder mode' =>
        simp only [renameAt] at h
        split at h
        · rename_i hab
          cases h
          exact .inl ⟨rfl, .inl hab⟩
        · rename_i hab
          split at h
          · rename_i hempty
            cases h
            exact .inr ⟨rfl, hab, .inr hempty⟩
          · cases h
    | leaf id =>
      cases replaced with
      | folder mode' => cases h
      | leaf id' =>
        have hb := isFolderAt_of_leaf hr
        simp only [renameAt] at h
        split at h
        · rename_i hid
          cases h
          exact .inl ⟨rfl, .inr ⟨id, hi, hid ▸ hr⟩⟩
        · rename_i hid
          cases h
          refine .inr ⟨rfl, ?_, .inl hb⟩
          rintro rfl
          simp [hi, hid] at hr

/-- The entry that `p` names, if there is one, can be replaced by a leaf. -/
def Yields (d : Disk) (p : Path) : Prop :=
  ∃ folder n, d.folderOf p = .ok (folder, .name n false) ∧ Text.utf8Size n ≤ nameLimit ∧
    d.isFolderAt (folder ++ [n]) = false ∧ d.isFixedAt (folder ++ [n]) = false

theorem not_folder_of_renameAt_leaf (h : d.renameAt a b (.leaf id) (d.item? b) = .ok d') :
    d.isFolderAt b = false := by
  cases hf : d.isFolderAt b with
  | false => rfl
  | true =>
    obtain ⟨mode, hm⟩ := isFolderAt_iff.mp hf
    rw [hm] at h
    cases h

theorem rename_ok (h : d.rename src dst = .ok d') : ∃ a b item,
    d.entry? src = some a ∧ d.entry? dst = some b ∧ d.item? a = some item ∧
      (d' = d ∧ d.AlreadyThere a b ∨
        d' = d.moveItems a b ∧ ¬ a <+: b ∧ ¬ b <+: a ∧
          (d.isFolderAt b = false ∨ d.names b = [])) ∧
      ((d.node? a).isSome → d.Yields dst) := by
  unfold rename at h
  split at h
  · cases h
  simp only [bind_eq_ok] at h
  obtain ⟨⟨srcFolder, srcLast⟩, hsrc, ⟨dstFolder, dstLast⟩, hdst, h⟩ := h
  cases srcLast with
  | name srcName srcSlash =>
    cases dstLast with
    | name dstName dstSlash =>
      simp only [bind_eq_ok] at h
      obtain ⟨found, hfound, h⟩ := h
      obtain ⟨-, hi⟩ := child_ok.mp hfound
      cases found with
      | none => cases h
      | some item =>
        obtain ⟨replaced, hreplaced, hat⟩ := bind_eq_ok.mp h
        obtain ⟨hsize, rfl⟩ := child_ok.mp hreplaced
        split at hat
        · cases hat
        rename_i hfixed
        split at hat
        · cases hat
        rename_i hslash
        split at hat
        · cases hat
        rename_i hin
        split at hat
        · cases hat
        rename_i hout
        replace hat := mapError_ok_iff.mp hat
        refine ⟨_, _, item, entry?_of_folderOf hsrc, entry?_of_folderOf hdst, hi, ?_, fun hleaf => ?_⟩
        · refine (renameAt_ok hi hat).imp id fun ⟨hmoved, hne, hgives⟩ => ?_
          -- A place above another one with a name more is above its folder, or is that place.
          have habove {folder place : Place} {n : Name} (hp : place <+: folder ++ [n])
              (hne : place ≠ folder ++ [n]) : place <+: folder :=
            (List.prefix_concat_iff.mp hp).resolve_left hne
          refine ⟨hmoved, fun hp => ?_, fun hp => ?_, hgives⟩
          · exact hin (List.isPrefixOf_iff_prefix.mpr (habove hp hne))
          · exact hout (List.isPrefixOf_iff_prefix.mpr (habove hp (Ne.symm hne)))
        · obtain rfl : dstSlash = false := by
            cases dstSlash with
            | false => rfl
            | true => exact absurd ⟨hleaf, .inr rfl⟩ hslash
          cases item with
          | folder mode => simp [node?, hi] at hleaf
          | leaf id =>
            exact ⟨dstFolder, dstName, hdst, hsize, not_folder_of_renameAt_leaf hat,
              by simpa using fun hb => hfixed (.inr hb)⟩
    | _ => cases h
  | _ => cases dstLast <;> cases h

/-- A leaf that can be moved at all is renamed to whatever yields to it. -/
theorem rename_of_yields (hd : d.WellFormed) {folder : Place} {n : Name}
    (hsrc : d.folderOf src = .ok (folder, .name n false))
    (hi : d.item? (folder ++ [n]) = some (.leaf id)) (hfixed : (d.node id).isFixed = false)
    (hy : d.Yields dst) : ∃ d', d.rename src dst = .ok d' := by
  obtain ⟨above, m, hdst, hsize, hleaf, hfixed'⟩ := hy
  have hn : Text.utf8Size n ≤ nameLimit := (hd.names hi n (by simp)).2
  have hfa := isFolderAt_of_leaf hi
  have hsrcFolder : d.isFolderAt folder := (folderOf_ok.mp hsrc).2.2.2
  have hdstFolder : d.isFolderAt above := (folderOf_ok.mp hdst).2.2.2
  have hin : (folder ++ [n]).isPrefixOf above = false := by
    simpa [← List.isPrefixOf_iff_prefix] using hd.not_prefix_of_folder hdstFolder hfa
  have hout : (above ++ [m]).isPrefixOf folder = false := by
    simpa [← List.isPrefixOf_iff_prefix] using hd.not_prefix_of_folder hsrcFolder hleaf
  have hnul : ¬ (src.hasNul = true ∨ dst.hasNul = true) := by
    simp [(checkPath_ok (folderOf_ok.mp hsrc).1).1, (checkPath_ok (folderOf_ok.mp hdst).1).1]
  have hkept : ¬ (d.isFixedAt (folder ++ [n]) = true ∨ d.isFixedAt (above ++ [m]) = true) := by
    have hfixedSrc : d.isFixedAt (folder ++ [n]) = false := by simp [isFixedAt, node?_of_leaf hi, hfixed]
    simp [hfixedSrc, hfixed']
  have hat : ∃ d', d.renameAt (folder ++ [n]) (above ++ [m]) (.leaf id) (d.item? (above ++ [m])) =
      .ok d' := by
    cases hr : d.item? (above ++ [m]) with
    | none => exact ⟨_, rfl⟩
    | some replaced =>
      cases replaced with
      | folder mode => simp [isFolderAt, hr] at hleaf
      | leaf id' =>
        simp only [renameAt]
        split
        · exact ⟨_, rfl⟩
        · exact ⟨_, rfl⟩
  obtain ⟨d', hat⟩ := hat
  refine ⟨d', ?_⟩
  rw [rename, if_neg hnul, hsrc, hdst]
  refine bind_eq_ok.mpr ⟨_, rfl, bind_eq_ok.mpr ⟨_, rfl, ?_⟩⟩
  refine bind_eq_ok.mpr ⟨_, child_ok.mpr ⟨hn, hi⟩, bind_eq_ok.mpr ⟨_, child_ok.mpr ⟨hsize, rfl⟩, ?_⟩⟩
  simp [hkept, hin, hout, hat, Except.mapError]

end Disk

end SafeFiles
