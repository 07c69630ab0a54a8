import DottedKeys.Text.Utf8

/-!
# Copying a stream

A stream hands out its bytes in chunks, and of a chunk at most as much as is asked for. An empty
chunk reads as the end. A transfer asks for the same amount again and again and writes what it gets,
until it gets nothing. `copy` is `copy_stream`, and `transfer` its loop.
-/

namespace DottedKeys

/-- A stream that bytes are read from. -/
structure Stream where
  chunks : List Bytes

namespace Stream

/-- Read at most `amount` bytes. What is left of a chunk is read next; an empty chunk is used up by
the empty read that it gives. -/
def read (amount : Nat) : Stream → Bytes × Stream
  | ⟨[]⟩ => ([], ⟨[]⟩)
  | ⟨chunk :: rest⟩ =>
    (chunk.take amount, if (chunk.drop amount).isEmpty then ⟨rest⟩ else ⟨chunk.drop amount :: rest⟩)

/-- How many bytes there are in the chunks of a stream. -/
def size (s : Stream) : Nat :=
  s.chunks.flatten.length

/-- What a transfer did: the amounts it asked for, and the bytes of each write. -/
structure Transfer where
  requests : List Nat
  writes : List Bytes

namespace Transfer

/-- The bytes that were written. -/
def written (t : Transfer) : Bytes :=
  t.writes.flatten

/-- How many bytes were written. -/
def count (t : Transfer) : Nat :=
  t.written.length

/-- A request that is answered with bytes, before the requests of another transfer. -/
def after (amount : Nat) (chunk : Bytes) (t : Transfer) : Transfer :=
  ⟨amount :: t.requests, chunk :: t.writes⟩

end Transfer

/-- A read takes from the chunks the bytes that it gives. -/
theorem flatten_read (amount : Nat) (s : Stream) :
    (s.read amount).1 ++ (s.read amount).2.chunks.flatten = s.chunks.flatten := by
  match s with
  | ⟨[]⟩ => rfl
  | ⟨chunk :: rest⟩ =>
    have parts := List.take_append_drop amount chunk
    rw [read]
    split
    next none_left =>
      rw [List.isEmpty_iff.1 none_left, List.append_nil] at parts
      rw [parts, List.flatten_cons]
    next => rw [List.flatten_cons, List.flatten_cons, ← List.append_assoc, parts]

/-- What a read leaves is smaller by the bytes that it gives. -/
theorem size_read (amount : Nat) (s : Stream) :
    (s.read amount).1.length + (s.read amount).2.size = s.size := by
  rw [size, size, ← List.length_append, flatten_read]

/-- Copy a stream in portions of at most `amount` bytes. -/
def transfer (amount : Nat) (s : Stream) : Transfer :=
  if (s.read amount).1 = [] then ⟨[amount], []⟩
  else (transfer amount (s.read amount).2).after amount (s.read amount).1
termination_by s.size
decreasing_by
  have given : (s.read amount).1 ≠ [] := by assumption
  have taken := size_read amount s
  have some_bytes := List.length_pos_iff.2 given
  omega

/-- How much a copy asks for unless it is told. -/
def bufferSize : Nat := 8192

/-- Why a stream cannot be copied. -/
inductive Fault where
  | noRoom
deriving DecidableEq

/-- What is reported of a copy that cannot be made. -/
def Fault.message : Fault → Text
  | noRoom => "buffer_size must be positive"

/-- Copy a stream through a buffer, which has to have room. -/
def copy (buffer : Int) (s : Stream) : Except Fault Transfer :=
  if buffer ≤ 0 then .error .noRoom else .ok (s.transfer buffer.toNat)

end Stream

end DottedKeys
