import DottedKeys.Stream

/-!
# What a copy writes

A copy ends at the first empty read, so what it writes are the chunks before the first empty one
(`written_transfer`), in whatever portions it asks for them.
-/

namespace DottedKeys.Stream

variable {amount : Nat}

theorem read_cons (amount : Nat) (chunk : Bytes) (rest : List Bytes) :
    Stream.read amount ⟨chunk :: rest⟩ =
      (chunk.take amount,
        if (chunk.drop amount).isEmpty then ⟨rest⟩ else ⟨chunk.drop amount :: rest⟩) :=
  rfl

/-- What is written is what each read gives, up to the first that gives nothing. -/
theorem written_transfer_eq (amount : Nat) (s : Stream) :
    (s.transfer amount).written =
      if (s.read amount).1 = [] then []
      else (s.read amount).1 ++ ((s.read amount).2.transfer amount).written := by
  rw [transfer]
  split
  next => rfl
  next => rfl

/-- The bytes before the first empty chunk. -/
def upToEmpty (s : Stream) : Bytes :=
  (s.chunks.takeWhile (!·.isEmpty)).flatten

theorem upToEmpty_cons {chunk : Bytes} (filled : chunk ≠ []) (rest : List Bytes) :
    upToEmpty ⟨chunk :: rest⟩ = chunk ++ upToEmpty ⟨rest⟩ := by
  rw [upToEmpty, List.takeWhile_cons_of_pos (by simpa using filled), List.flatten_cons]
  rfl

/-- A read takes bytes from the front of those before the first empty chunk. -/
theorem upToEmpty_read {s : Stream} (given : (s.read amount).1 ≠ []) :
    s.upToEmpty = (s.read amount).1 ++ (s.read amount).2.upToEmpty := by
  match s with
  | ⟨[]⟩ => exact absurd rfl given
  | ⟨chunk :: rest⟩ =>
    rw [read_cons] at given ⊢
    have filled : chunk ≠ [] := by
      rintro rfl
      exact given List.take_nil
    have parts := List.take_append_drop amount chunk
    rw [upToEmpty_cons filled]
    split
    next used_up =>
      rw [List.isEmpty_iff.1 used_up, List.append_nil] at parts
      rw [parts]
    next more =>
      rw [upToEmpty_cons (by simpa using more), ← List.append_assoc, parts]

/-- An empty read comes from an empty chunk or from the end. -/
theorem upToEmpty_of_read_eq_nil (room : 0 < amount) {s : Stream} (none_given : (s.read amount).1 = []) :
    s.upToEmpty = [] := by
  match s with
  | ⟨[]⟩ => rfl
  | ⟨chunk :: rest⟩ =>
    have bare : chunk = [] := by
      rcases List.take_eq_nil_iff.1 none_given with none_asked | bare
      · omega
      · exact bare
    rw [bare]
    rfl

/-- A copy with room for some bytes writes those before the first empty chunk. -/
theorem written_transfer (room : 0 < amount) (s : Stream) :
    (s.transfer amount).written = s.upToEmpty := by
  induction s using transfer.induct amount with
  | case1 s none_given =>
    rw [written_transfer_eq, if_pos none_given, upToEmpty_of_read_eq_nil room none_given]
  | case2 s given ih =>
    rw [written_transfer_eq, if_neg given, ih, upToEmpty_read given]

/-- A copy of one chunk writes all of it. -/
theorem written_transfer_single (contents : Bytes) :
    (transfer bufferSize ⟨[contents]⟩).written = contents := by
  rw [written_transfer (by decide)]
  cases contents <;> simp [upToEmpty]

end DottedKeys.Stream
