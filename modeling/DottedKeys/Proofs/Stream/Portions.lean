import DottedKeys.Proofs.Stream
import Mathlib.Algebra.BigOperators.Group.List.Basic
import Mathlib.Algebra.Order.Floor.Div
import Mathlib.GroupTheory.GroupAction.Ring

/-!
# The portions of a copy

A copy asks for the same amount every time, and each request but the last takes one portion of a
chunk. `transfer_requests` and `transfer_writes` follow the reads one by one; `copy_portions` says
from the chunks alone what is written, in which portions, and how many requests it takes.
-/

namespace DottedKeys.Stream

variable {amount : Nat}

/-- The chunks before the first empty one. -/
def filled (s : Stream) : List Bytes :=
  s.chunks.takeWhile (!·.isEmpty)

/-- How many portions the chunks before the first empty one take, none of which goes on into another
chunk. -/
def portions (amount : Nat) (s : Stream) : Nat :=
  (s.filled.map fun chunk => chunk.length ⌈/⌉ amount).sum

theorem portions_cons {chunk : Bytes} (some_bytes : chunk ≠ []) (rest : List Bytes) :
    portions amount ⟨chunk :: rest⟩ = chunk.length ⌈/⌉ amount + portions amount ⟨rest⟩ := by
  rw [portions, filled, List.takeWhile_cons_of_pos (by simpa using some_bytes), List.map_cons,
    List.sum_cons]
  rfl

/-- One portion of a chunk is taken first, and the rest of it is cut like a chunk. -/
theorem length_ceilDiv (room : 0 < amount) {chunk : Bytes} (some_bytes : chunk ≠ []) :
    chunk.length ⌈/⌉ amount = 1 + (chunk.drop amount).length ⌈/⌉ amount := by
  have long := List.length_pos_iff.2 some_bytes
  rw [Nat.ceilDiv_eq_add_pred_div, Nat.ceilDiv_eq_add_pred_div, List.length_drop]
  rcases Nat.lt_or_ge amount chunk.length with more | last
  · have step : chunk.length + amount - 1 = (chunk.length - amount + amount - 1) + amount := by omega
    rw [step, Nat.add_div_right _ room, Nat.add_comm]
  · have one : (chunk.length + amount - 1) / amount = 1 :=
      Nat.div_eq_of_lt_le (by omega) (by omega)
    have none : (chunk.length - amount + amount - 1) / amount = 0 := Nat.div_eq_of_lt (by omega)
    rw [one, none]

/-- A read that gives bytes takes one portion. -/
theorem portions_read (room : 0 < amount) {s : Stream} (given : (s.read amount).1 ≠ []) :
    s.portions amount = 1 + (s.read amount).2.portions amount := by
  match s with
  | ⟨[]⟩ => exact absurd rfl given
  | ⟨chunk :: rest⟩ =>
    rw [read_cons] at given ⊢
    have some_bytes : chunk ≠ [] := by
      rintro rfl
      exact given List.take_nil
    rw [portions_cons some_bytes, length_ceilDiv room some_bytes, Nat.add_assoc]
    dsimp only
    split
    next used_up =>
      have none : ([] : Bytes).length ⌈/⌉ amount = 0 := zero_ceilDiv amount
      rw [List.isEmpty_iff.1 used_up, none, Nat.zero_add]
    next more => rw [portions_cons (by simpa using more)]

/-- A read that gives nothing finds nothing to cut. -/
theorem portions_of_read_eq_nil (room : 0 < amount) {s : Stream} (none_given : (s.read amount).1 = []) :
    s.portions amount = 0 := by
  match s with
  | ⟨[]⟩ => rfl
  | ⟨chunk :: rest⟩ =>
    have bare : chunk = [] := (List.take_eq_nil_iff.1 none_given).resolve_left room.ne'
    rw [bare]
    rfl

theorem length_read_le (amount : Nat) (s : Stream) : (s.read amount).1.length ≤ amount := by
  match s with
  | ⟨[]⟩ => exact Nat.zero_le amount
  | ⟨chunk :: rest⟩ => exact List.length_take_le amount chunk

/-- There is one request for each portion, and one more that finds nothing. -/
theorem transfer_requests (room : 0 < amount) (s : Stream) :
    (s.transfer amount).requests = List.replicate (s.portions amount + 1) amount := by
  induction s using transfer.induct amount with
  | case1 s none_given =>
    rw [transfer, if_pos none_given, portions_of_read_eq_nil room none_given]
    rfl
  | case2 s given ih =>
    rw [transfer, if_neg given, portions_read room given, Nat.add_comm 1, List.replicate_succ, ← ih]
    rfl

/-- Whatever is written has bytes, but no more than were asked for. -/
theorem transfer_writes (amount : Nat) (s : Stream) :
    ∀ chunk ∈ (s.transfer amount).writes, chunk ≠ [] ∧ chunk.length ≤ amount := by
  induction s using transfer.induct amount with
  | case1 s none_given =>
    rw [transfer, if_pos none_given]
    exact fun chunk none => absurd none List.not_mem_nil
  | case2 s given ih =>
    rw [transfer, if_neg given]
    intro chunk among
    rcases List.mem_cons.1 among with rfl | later
    · exact ⟨given, length_read_le amount s⟩
    · exact ih chunk later

/-- **A copy writes the stream up to its first empty chunk.** Without room in the buffer it is
refused, and nothing is asked for or written. With room it comes to an end: it writes the bytes of the
chunks before the first empty one and counts them, every write has bytes and fits the buffer, every
request is for the size of the buffer, and there is one request for each portion of these chunks and
one more. -/
theorem copy_portions (buffer : Int) (s : Stream) :
    (buffer ≤ 0 → s.copy buffer = .error .noRoom) ∧
    (0 < buffer → ∃ t, s.copy buffer = .ok t ∧
      t.written = s.filled.flatten ∧
      t.count = s.filled.flatten.length ∧
      (∀ chunk ∈ t.writes, chunk ≠ [] ∧ chunk.length ≤ buffer) ∧
      (∀ request ∈ t.requests, request = buffer) ∧
      t.requests.length =
        (s.filled.map fun chunk => chunk.length ⌈/⌉ buffer.toNat).sum + 1) := by
  refine ⟨fun full => if_pos full, fun room => ?_⟩
  obtain ⟨amount, rfl⟩ := Int.eq_ofNat_of_zero_le room.le
  have room : 0 < amount := by omega
  have written : (s.transfer amount).written = s.filled.flatten := written_transfer room s
  have requests := transfer_requests room s
  refine ⟨s.transfer amount, if_neg (by omega), written, ?_, fun chunk among => ?_, ?_, ?_⟩
  · rw [Transfer.count, written]
  · obtain ⟨some_bytes, fits⟩ := transfer_writes amount s chunk among
    exact ⟨some_bytes, Int.ofNat_le.2 fits⟩
  · rw [requests]
    intro request among
    rw [List.eq_of_mem_replicate among]
  · rw [requests, List.length_replicate]
    rfl

/-- A stream with a chunk that the buffer divides, one that it does not, and one behind an empty
chunk. -/
def gappedStream : Stream :=
  ⟨[[1, 2, 3, 4], [5, 6, 7], [], [8]]⟩

theorem copy_portions_gappedStream :
    gappedStream.copy 0 = .error .noRoom ∧
      ∃ t, gappedStream.copy 2 = .ok t ∧ t.written = [1, 2, 3, 4, 5, 6, 7] ∧ t.count = 7 ∧
        (∀ chunk ∈ t.writes, chunk ≠ [] ∧ chunk.length ≤ (2 : Int)) ∧
        (∀ request ∈ t.requests, request = (2 : Int)) ∧ t.requests.length = 5 := by
  refine ⟨(copy_portions 0 gappedStream).1 (by decide), ?_⟩
  obtain ⟨t, copied, written, count, writes, requests, number⟩ :=
    (copy_portions 2 gappedStream).2 (by decide)
  exact ⟨t, copied, written, count, writes, requests, number⟩

end DottedKeys.Stream
