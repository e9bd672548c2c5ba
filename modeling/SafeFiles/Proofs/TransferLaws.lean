import SafeFiles.Copy

/-!
# Transfers

However the turns come out, a transfer takes bytes from the front of what is unread
and puts them behind what is written, and counts each of them once
(`Transfer.Forward`). It ends only when nothing is wanted or nothing is left to
read, so all that the turns decide is how often the transfer is interrupted
(`run_eq_take`).
-/

namespace SafeFiles

namespace Transfer

variable {t t' t'' : Transfer} {n : Nat}

/-- `t'` is `t` some bytes further on: none is lost or moved twice, and each one is counted. -/
structure Forward (t t' : Transfer) : Prop where
  bytes : t'.written ++ t'.unread = t.written ++ t.unread
  count : t'.written.length + t'.wanted = t.written.length + t.wanted

theorem Forward.refl (t : Transfer) : t.Forward t := ⟨rfl, rfl⟩

theorem Forward.trans (h : t.Forward t') (h' : t'.Forward t'') : t.Forward t'' :=
  ⟨h'.bytes.trans h.bytes, h'.count.trans h.count⟩

-- ---------------------------------------------------------------------------
-- Turns
-- ---------------------------------------------------------------------------

/-- One request moves no more than is wanted and no more than is there, so no counter runs below zero. -/
theorem forward_advance (t : Transfer) (n : Nat) : t.Forward (t.advance n) := by
  have hle : min n (min t.wanted t.unread.length) ≤ t.unread.length := by omega
  refine ⟨?_, ?_⟩
  · simp only [advance, List.append_assoc, List.take_append_drop]
  · simp only [advance, List.length_append, List.length_take, Nat.min_eq_left hle]
    omega

theorem forward_kernel (turns : List KernelTurn) (t : Transfer) : t.Forward (kernel turns t) := by
  induction turns generalizing t with
  | nil => exact forward_advance t t.wanted
  | cons turn turns ih =>
    cases turn with
    | stopped => exact .refl t
    | interrupted => exact ih t
    | moved count =>
      cases count with
      | zero => exact .refl t
      | succ count => exact (forward_advance t _).trans (ih _)

theorem forward_reads (turns : List ReadTurn) (t : Transfer) : t.Forward (reads turns t) := by
  induction turns generalizing t with
  | nil => exact forward_advance t t.wanted
  | cons turn turns ih =>
    cases turn with
    | interrupted => exact ih t
    | upTo count => exact (forward_advance t _).trans (ih _)

theorem reads_ends (turns : List ReadTurn) (t : Transfer) :
    (reads turns t).wanted = 0 ∨ (reads turns t).unread = [] := by
  induction turns generalizing t with
  | nil =>
    simp only [reads, advance, List.drop_eq_nil_iff]
    omega
  | cons turn turns ih =>
    cases turn with
    | interrupted => exact ih t
    | upTo count => exact ih _

-- ---------------------------------------------------------------------------
-- The whole transfer
-- ---------------------------------------------------------------------------

/-- All turns together move the bytes that are wanted, as far as there are any. -/
theorem run_eq_take (turns : Turns) (data : Bytes) (wanted : Nat) :
    Transfer.run turns ⟨data, [], wanted⟩ = data.take wanted := by
  have hforward := (forward_kernel turns.kernel ⟨data, [], wanted⟩).trans (forward_reads turns.reads _)
  obtain ⟨hbytes, hcount⟩ := hforward
  have hends := reads_ends turns.reads (kernel turns.kernel ⟨data, [], wanted⟩)
  rw [run]
  generalize reads turns.reads (kernel turns.kernel ⟨data, [], wanted⟩) = last at hbytes hcount hends ⊢
  simp only [List.nil_append, List.length_nil, Nat.zero_add] at hbytes hcount
  rw [← hbytes]
  rcases hends with hwanted | hunread
  · obtain rfl : last.written.length = wanted := by omega
    rw [List.take_left]
  · rw [hunread, List.append_nil, List.take_of_length_le (by omega)]

end Transfer

theorem Disk.transferred_eq_take (d : Disk) (turns : Turns) (src dst : Place) (amount : Nat) :
    d.transferred turns src dst amount = (d.sourceAt src).take amount := by
  unfold transferred
  simp only
  split
  · rename_i data hdata
    rw [Transfer.run_eq_take, hdata]
    rfl
  · rename_i hzeros
    rw [hzeros]
  · rename_i e hrefused
    rw [hrefused]
    rfl

end SafeFiles
