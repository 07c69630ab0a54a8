import DottedKeys.Proofs.Generate.Accepted
import DottedKeys.Proofs.Properties.Reading

/-!
# The keys that a run goes on with

What keeps properties from being read does not keep a run from going on with the keys before it.
`keeps_loadKeys` says which keys these are and what is logged of them: none for a file without a text,
and for a text the keys of the lines before the first malformed one.
-/

namespace DottedKeys.Generate

open DottedKeys.Action Disk Properties

section Reading

variable [Codecs]

/-- Reading keys returns these keys and leaves the disk as it is. Their number is logged, and before it
what kept other keys from being read, with the same number. -/
structure Keeps (file encoding : Text) (d : Disk) (keys : List Text) (stopped : Option Failure) :
    Prop where
  result : ((loadKeys file encoding).perform d).result = .ok keys
  disk : ((loadKeys file encoding).perform d).disk = d
  log : ((loadKeys file encoding).perform d).log =
    (stopped.map (.unread file keys.length)).toList ++ [.loaded file keys.length]

variable {file encoding : Text} {d : Disk}

/-- What was loaded is kept, unless a run does not recover from what stopped it. -/
theorem keeps_of_load {loaded : Loaded} (load : load file encoding d = loaded)
    (recovers : ∀ failure ∈ loaded.failure, failure.isRecoverable = true) :
    Keeps file encoding d (Key.sort loaded.table.keys) loaded.failure := by
  subst load
  have result := result_loadKeys recovers
  obtain ⟨-, -, same, log⟩ := (ends_loadKeys file encoding ⟨d, []⟩).returned result
  refine ⟨result, same, ?_⟩
  have counted : (Key.sort (Generate.load file encoding d).table.keys).length =
      (Generate.load file encoding d).table.keys.length := (Key.sort_perm _).length_eq
  rwa [List.nil_append, ← counted] at log

/-- Nothing is kept of a file without a text. -/
theorem keeps_of_readText_error {failure : Failure}
    (unread : readText file encoding d = .error failure) (recovers : failure.isRecoverable = true) :
    Keeps file encoding d [] (some failure) := by
  have loaded : load file encoding d = ⟨.empty, some failure⟩ := by rw [load, unread]
  have none_sorted : Key.sort (Table.keys .empty) = [] := (Key.sort_perm []).eq_nil
  have kept := keeps_of_load loaded (by simpa using recovers)
  rwa [none_sorted] at kept

/-- **The keys before the first malformed line.** A file that cannot be opened or decoded counts with
no keys. Of a text the keys of the lines before the first malformed line count, each once and sorted;
of all lines if none is malformed. Neither the malformed line nor the lines behind it add anything. -/
theorem keeps_loadKeys {file encoding : Text} {codec : Codec}
    (nameable : Encoding.nameFlaw? encoding = none) (known : Codec.opened? encoding = some codec)
    (d : Disk) :
    (∀ reason name, d.read (.parse file) = .error (.refused reason name) →
      Keeps file encoding d [] (some (.disk (.refused reason name)))) ∧
    ∀ decode bytes, codec.decoder? = some decode → d.read (.parse file) = .ok bytes →
      (decode bytes = .error .undecodable →
        Keeps file encoding d [] (some (.encoding .undecodable))) ∧
      ∀ text, decode bytes = .ok text →
        ∃ keys, List.Forall₂ (fun line key => unescape (splitEntry line).1 = .ok key)
            ((logicalLines text).takeWhile (¬ MalformedLine ·)) keys ∧
          Keeps file encoding d (Key.sort keys.eraseDups)
            ((((logicalLines text).find? (MalformedLine ·)).bind fault?).map .malformed) := by
  refine ⟨fun reason name refused => ?_, fun decode bytes text held => ?_⟩
  · have unread : readText file encoding d = .error (.disk (.refused reason name)) := by
      rw [readText_eq_bind nameable, refused]
      rfl
    exact keeps_of_readText_error unread rfl
  have decoding := readText_eq_of_read nameable known text held
  refine ⟨fun undecodable => ?_, fun text decoded => ?_⟩
  · rw [undecodable] at decoding
    exact keeps_of_readText_error decoding rfl
  · rw [decoded] at decoding
    have loaded : load file encoding d =
        ⟨(Properties.read text).table, (Properties.read text).fault.map .malformed⟩ := by
      rw [load, decoding]
      rfl
    have recovers : ∀ failure ∈ (Properties.read text).fault.map Failure.malformed,
        failure.isRecoverable = true := by
      simp [Failure.isRecoverable]
    obtain ⟨keys, before, same, fault⟩ := exists_keys_read_eq text
    have kept := keeps_of_load loaded recovers
    rw [same, fault] at kept
    exact ⟨keys, before, kept⟩

end Reading

/-- Properties with a key twice, a line that is continued, and a malformed value behind a good key. -/
def brokenText : Text :=
  "b=1\na=\\\n2\nb=3\nc=\\u12\nd=4\n"

/-- No file, a file without a text, and a file with a malformed line. -/
theorem keeps_loadKeys_utf8 :
    Keeps "p" "UTF-8" ⟨[]⟩ [] (some (.disk (.refused .notFound "p"))) ∧
      Keeps "p" "UTF-8" (diskOf [0xFF]) [] (some (.encoding .undecodable)) ∧
      Keeps "p" "UTF-8" (diskOf (Utf8.encode brokenText)) ["a", "b"] (some (.malformed ⟨"12"⟩)) := by
  have nameable : Encoding.nameFlaw? "UTF-8" = none := by decide +kernel
  have known : Codec.opened? "UTF-8" = some (.own .utf8) := rfl
  have kept := @keeps_loadKeys _ "p" "UTF-8" (.own .utf8) nameable known
  refine ⟨(kept _).1 _ _ (by decide +kernel),
    ((kept _).2 Encoding.utf8.decode [0xFF] rfl (by decide +kernel)).1 (by decide +kernel), ?_⟩
  obtain ⟨keys, before, whole⟩ := ((kept (diskOf (Utf8.encode brokenText))).2 Encoding.utf8.decode
    (Utf8.encode brokenText) rfl (by decide +kernel)).2 brokenText (by decide +kernel)
  have sound : (logicalLines brokenText).takeWhile (¬ MalformedLine ·) =
      [("b=1" : Text), "a=2", "b=3"] := by decide +kernel
  have decoded : keys = [("b" : Text), "a", "b"] := by
    rw [sound] at before
    obtain _ | ⟨first, _ | ⟨second, _ | ⟨third, ⟨⟩⟩⟩⟩ := before
    obtain rfl := Except.ok.inj (first.symm.trans (by decide +kernel : unescape _ = .ok "b"))
    obtain rfl := Except.ok.inj (second.symm.trans (by decide +kernel : unescape _ = .ok "a"))
    obtain rfl := Except.ok.inj (third.symm.trans (by decide +kernel : unescape _ = .ok "b"))
    rfl
  have sorted : Key.sort (List.eraseDups ["b", "a", "b"]) = [("a" : Text), "b"] := by
    have firsts : List.eraseDups [("b" : Text), "a", "b"] = [("b" : Text), "a"] := by decide +kernel
    have swapped : Key.precedes "b" "a" = false := by decide +kernel
    simp [firsts, Key.sort, List.mergeSort, swapped]
  have stopped : ((logicalLines brokenText).find? (MalformedLine ·)).bind fault? = some ⟨"12"⟩ := by
    decide +kernel
  rw [decoded, sorted, stopped] at whole
  exact whole

end DottedKeys.Generate
