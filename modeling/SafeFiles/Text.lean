/-!
# Text

Text is a list of characters, so that every rule about it is a structural
recursion. `pieces` cuts text at a separator and `joinWith` undoes the cut.
-/

namespace SafeFiles

abbrev Text := List Char

abbrev Bytes := List UInt8

namespace Text

/-- Length in bytes of the UTF-8 form. -/
def utf8Size (t : Text) : Nat :=
  t.foldr (fun c size => c.utf8Size + size) 0

/-- The parts between separators: always one more than there are separators. -/
def pieces (sep : Char) : Text → List Text
  | [] => [[]]
  | c :: rest =>
    if c = sep then [] :: pieces sep rest
    else match pieces sep rest with
      | [] => [[c]]
      | first :: others => (c :: first) :: others

def joinWith (sep : Char) : List Text → Text
  | [] => []
  | [piece] => piece
  | piece :: others => piece ++ sep :: joinWith sep others

theorem pieces_ne_nil (sep : Char) (t : Text) : pieces sep t ≠ [] := by
  cases t with
  | nil => simp [pieces]
  | cons c rest =>
    unfold pieces
    split
    · simp
    · split <;> simp

theorem joinWith_concat (sep : Char) {pieces : List Text} (h : pieces ≠ []) (piece : Text) :
    joinWith sep (pieces ++ [piece]) = joinWith sep pieces ++ sep :: piece := by
  induction pieces with
  | nil => exact absurd rfl h
  | cons first others ih =>
    cases others with
    | nil => simp [joinWith]
    | cons second others =>
      have hrest := ih (by simp)
      simp only [List.cons_append, joinWith] at hrest ⊢
      rw [hrest, List.append_assoc, List.cons_append]

theorem joinWith_pieces (sep : Char) (t : Text) : joinWith sep (pieces sep t) = t := by
  induction t with
  | nil => rfl
  | cons c rest ih =>
    unfold pieces
    cases h : pieces sep rest with
    | nil => exact absurd h (pieces_ne_nil sep rest)
    | cons first others =>
      rw [h] at ih
      split
      · next hc => subst hc; simp [joinWith, ih]
      · cases others with
        | nil => simpa [joinWith] using ih
        | cons second others => simpa [joinWith] using ih

theorem pieces_append (sep : Char) (t u : Text) :
    pieces sep (t ++ sep :: u) = pieces sep t ++ pieces sep u := by
  induction t with
  | nil => simp [pieces]
  | cons c rest ih =>
    by_cases hc : c = sep
    · simp [pieces, hc, ih]
    · obtain ⟨first, others, hp⟩ := List.exists_cons_of_ne_nil (pieces_ne_nil sep rest)
      simp [pieces, hc, ih, hp]

theorem pieces_of_not_mem {sep : Char} {t : Text} (h : sep ∉ t) : pieces sep t = [t] := by
  induction t with
  | nil => rfl
  | cons c rest ih =>
    simp only [List.mem_cons, not_or] at h
    simp [pieces, Ne.symm h.1, ih h.2]

theorem mem_pieces {sep : Char} {t piece : Text} (h : piece ∈ pieces sep t) :
    sep ∉ piece ∧ ∀ c ∈ piece, c ∈ t := by
  induction t generalizing piece with
  | nil => simp_all [pieces]
  | cons c rest ih =>
    obtain ⟨first, others, hp⟩ := List.exists_cons_of_ne_nil (pieces_ne_nil sep rest)
    rw [pieces, hp] at h
    rw [hp] at ih
    split at h
    · rcases List.mem_cons.mp h with rfl | h
      · simp
      · exact ⟨(ih h).1, fun x hx => List.mem_cons_of_mem c ((ih h).2 x hx)⟩
    · rename_i hc
      rcases List.mem_cons.mp h with rfl | h
      · obtain ⟨hsep, hin⟩ := ih List.mem_cons_self
        refine ⟨by simp [Ne.symm hc, hsep], fun x hx => ?_⟩
        exact (List.mem_cons.mp hx).elim (fun h => h ▸ List.mem_cons_self)
          fun hx => List.mem_cons_of_mem c (hin x hx)
      · have hlater := ih (List.mem_cons_of_mem first h)
        exact ⟨hlater.1, fun x hx => List.mem_cons_of_mem c (hlater.2 x hx)⟩

/-- Cut before the first character that satisfies `p`, which goes with the second part. -/
def cutAt (p : Char → Bool) (t : Text) : Text × Text :=
  (t.takeWhile (!p ·), t.dropWhile (!p ·))

theorem cutAt_append (p : Char → Bool) (t : Text) : (cutAt p t).1 ++ (cutAt p t).2 = t :=
  List.takeWhile_append_dropWhile

theorem cutAt_snd_length (p : Char → Bool) (t : Text) : (cutAt p t).2.length ≤ t.length :=
  (List.dropWhile_sublist _).length_le

theorem cutAt_of_stop {p : Char → Bool} {t u : Text} (ht : ∀ c ∈ t, p c = false) (hu : ∀ c ∈ u.head?, p c = true) :
    cutAt p (t ++ u) = (t, u) := by
  have htake : ∀ c ∈ t, (!p c) = true := by simpa using ht
  rw [cutAt, List.takeWhile_append_of_pos htake, List.dropWhile_append_of_pos htake]
  cases u with
  | nil => simp
  | cons c rest => simp [hu c rfl]

/-- A cut that is stopped by what follows is a cut of what stands in front of it. -/
theorem cutAt_append_stop {p : Char → Bool} {u : Text} (t : Text) (hne : u ≠ []) (hu : ∀ c ∈ u.head?, p c = true) :
    cutAt p (t ++ u) = ((cutAt p t).1, (cutAt p t).2 ++ u) := by
  obtain ⟨c, rest, rfl⟩ := List.exists_cons_of_ne_nil hne
  have hc := hu c rfl
  induction t with
  | nil => simp [cutAt, hc]
  | cons a t ih =>
    simp only [cutAt, Prod.mk.injEq] at ih ⊢
    cases ha : p a <;> simp [ha, ih]

/-- Lower case for the letters `A` to `Z`; every other character stays. -/
def asciiLower (t : Text) : Text :=
  t.map Char.toLower

/-- The text of bytes that are well-formed UTF-8. -/
def ofUtf8? (bytes : Bytes) : Option Text :=
  (String.fromUTF8? (ByteArray.mk bytes.toArray)).map String.toList

def toUtf8 (t : Text) : Bytes :=
  (String.ofList t).toUTF8.data.toList

end Text

/-- A text as it is shown in a message. -/
def shown (t : Text) : String := String.ofList t

/-- The decimal text of a number. -/
def decimal (n : Nat) : Text := Nat.toDigits 10 n

end SafeFiles
