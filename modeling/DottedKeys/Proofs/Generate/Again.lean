import DottedKeys.Proofs.Generate.Outcome
import DottedKeys.Proofs.Package.Again

/-!
# Running again

A second run with the same settings starts from the disk that the first one left. It gets the same
keys, although the properties may have been missing at first and a directory may have come to stand
in their place (`load_of_read_iff`); the rest of it does again what is done already
(`ends_package_of_standing`).
-/

namespace DottedKeys.Generate

open DottedKeys.Action Disk Package Source

section Runs

variable [Codecs]

/-- Disks on which a file can be read alike give the same properties. What keeps a run from reading
them may differ, but a run recovers from it on both or on neither. -/
theorem load_of_read_iff {file encoding : Text} {d d' : Disk}
    (alike : ∀ contents, d'.read (.parse file) = .ok contents ↔ d.read (.parse file) = .ok contents)
    (recovers : ∀ failure ∈ (load file encoding d).failure, failure.isRecoverable = true) :
    (load file encoding d').table = (load file encoding d).table ∧
      ∀ failure ∈ (load file encoding d').failure, failure.isRecoverable = true := by
  cases read : d.read (.parse file) with
  | ok bytes =>
    have same : load file encoding d' = load file encoding d := by
      simp only [load, readText, read, (alike bytes).2 read]
    rw [same]
    exact ⟨rfl, recovers⟩
  | error fault =>
    obtain ⟨fault', read'⟩ : ∃ fault', d'.read (.parse file) = .error fault' := by
      cases read' : d'.read (.parse file) with
      | error fault' => exact ⟨fault', rfl⟩
      | ok bytes => cases read.symm.trans ((alike bytes).1 read')
    cases nameable : Encoding.nameFlaw? encoding with
    | some flaw =>
      have same : load file encoding d' = load file encoding d := by
        simp only [load, readText, nameable]
      rw [same]
      exact ⟨rfl, recovers⟩
    | none =>
      have loaded : load file encoding d = ⟨.empty, some (.disk fault)⟩ := by
        simp only [load, readText, read, nameable]
      have loaded' : load file encoding d' = ⟨.empty, some (.disk fault')⟩ := by
        simp only [load, readText, read', nameable]
      have refusal : (Failure.disk fault).isRecoverable = true := recovers _ (by simp [loaded])
      have refusal' : (Failure.disk fault').isRecoverable = true :=
        (isRefusal_iff_of_read read').2 ((isRefusal_iff_of_read read).1 refusal)
      rw [loaded, loaded']
      exact ⟨rfl, by simpa using refusal'⟩

/-- A run returns what packaging returns, if no step before that fails. -/
theorem ends_generate_of_package {c : Config} {w : World} {layout : Layout} {contents : Text}
    {returns : Text → World → Prop} (known : layout? c.language = some layout)
    (recovers : ∀ failure ∈ (load c.properties c.encoding w.disk).failure, failure.isRecoverable = true)
    (rendered : render layout (Group.ofKeys (Key.sort (load c.properties c.encoding w.disk).table.keys))
      c.typeName = .ok contents)
    (packaged : ∀ between : World, between.disk = w.disk →
      Ends (package c.staging c.archive c.typeName contents layout.suffix) between returns
        fun _ _ => False) :
    Ends (generate c) w returns fun _ _ => False := by
  rw [generate, ends_bind, ends_layoutOf, known]
  refine ⟨?_, by simp⟩
  rintro _ ⟨rfl⟩
  refine (ends_loadKeys c.properties c.encoding w).bind ?_ ?_
  · rintro _ between ⟨rfl, -, same, -⟩
    rw [rendered]
    exact packaged between same
  · rintro failure _ ⟨unread, stuck, -⟩
    rw [recovers failure unread] at stuck
    contradiction

/-- **Running again changes nothing.** If a run returns on a disk where everything stands in a
directory, and its properties, its archive and its staged file are apart, then it leaves the source
staged and archived, and again everything stands in a directory. From there the properties give the
same keys, and a second run returns the same entry and leaves every file, every archive and every
directory as they are, and adds none. Only the path of the properties must not lead back. -/
theorem generate_again {c : Config} {d : Disk} {entry : Text} (tree : d.IsTree)
    (returned : ((generate c).perform d).result = .ok entry)
    (forward : (".." : Text) ∉ (Path.parse c.properties).names)
    (archive_staged : destination (.parse c.archive) ≠ destination (stagedPath c.staging entry))
    (properties_staged : destination (.parse c.properties) ≠ destination (stagedPath c.staging entry))
    (properties_archive : destination (.parse c.properties) ≠ destination (.parse c.archive)) :
    (∃ contents, Packed c.archive (stagedPath c.staging entry) entry contents
      d ((generate c).perform d).disk) ∧
    ((generate c).perform d).disk.IsTree ∧
    ((loadKeys c.properties c.encoding).perform ((generate c).perform d).disk).result =
      ((loadKeys c.properties c.encoding).perform d).result ∧
    ((generate c).perform ((generate c).perform d).disk).result = .ok entry ∧
    ∀ l, ((generate c).perform ((generate c).perform d).disk).disk.get? l =
      ((generate c).perform d).disk.get? l := by
  obtain ⟨layout, contents, known, named, recovers, rendered, steps⟩ :=
    (ends_generate_steps c ⟨d, []⟩).returned returned
  dsimp only at recovers rendered steps
  generalize ((generate c).perform d).disk = after at steps ⊢
  have packed := packed_of_steps steps archive_staged
  have standing := standing_of_steps steps archive_staged
  have alike : ∀ bytes, after.read (.parse c.properties) = .ok bytes ↔
      d.read (.parse c.properties) = .ok bytes := by
    intro bytes
    refine read_eq_ok_iff_of_isTree tree (keepsDirectories_of_steps steps) forward ?_
    exact (packed.elsewhere _ properties_staged properties_archive).imp_right And.right
  obtain ⟨same, recovers'⟩ := load_of_read_iff alike recovers
  have same_keys : ((loadKeys c.properties c.encoding).perform after).result =
      ((loadKeys c.properties c.encoding).perform d).result := by
    rw [result_loadKeys recovers, result_loadKeys recovers', same]
  rw [← same] at rendered
  have ended : Ends (generate c) ⟨after, []⟩
      (fun again later => again = entry ∧ ∀ l, later.disk.get? l = after.get? l) fun _ _ => False := by
    refine ends_generate_of_package known recovers' rendered ?_
    rintro ⟨_, log⟩ rfl
    exact ends_package_of_standing named standing archive_staged
  refine ⟨⟨_, packed⟩, isTree_of_steps steps tree, same_keys, ?_⟩
  cases result : ((generate c).perform after).result with
  | ok again =>
    obtain ⟨rfl, unchanged⟩ := ended.returned result
    exact ⟨rfl, unchanged⟩
  | error failure => exact (ended.failed result).elim

end Runs

/-- Settings under which the directory of the staged file takes the place of the properties. -/
def overlapping : Config where
  archive := "k.zip"
  properties := "build/com"
  typeName := "com.Keys"
  staging := "build"
  language := "python"
  encoding := "utf-8"

/-- Properties that are missing at first, and in the place of which the first run makes a directory. -/
theorem generate_again_overlapping :
    empty.IsTree ∧ ((generate overlapping).perform empty).result = .ok "com/Keys.py" ∧
      (".." : Text) ∉ (Path.parse overlapping.properties).names ∧
      destination (.parse overlapping.archive) ≠
        destination (stagedPath overlapping.staging "com/Keys.py") ∧
      destination (.parse overlapping.properties) ≠
        destination (stagedPath overlapping.staging "com/Keys.py") ∧
      destination (.parse overlapping.properties) ≠ destination (.parse overlapping.archive) ∧
      empty.get? (destination (.parse overlapping.properties)) = none ∧
      ((generate overlapping).perform empty).disk.get? (destination (.parse overlapping.properties)) =
        some .directory ∧
      ((generate overlapping).perform ((generate overlapping).perform empty).disk).result =
        .ok "com/Keys.py" ∧
      ∀ l, ((generate overlapping).perform ((generate overlapping).perform empty).disk).disk.get? l =
        ((generate overlapping).perform empty).disk.get? l := by
  have returned : ((generate overlapping).perform empty).result = .ok "com/Keys.py" := by
    decide +kernel
  have forward : (".." : Text) ∉ (Path.parse overlapping.properties).names := by decide +kernel
  have archive_staged : destination (.parse overlapping.archive) ≠
      destination (stagedPath overlapping.staging "com/Keys.py") := by decide +kernel
  have properties_staged : destination (.parse overlapping.properties) ≠
      destination (stagedPath overlapping.staging "com/Keys.py") := by decide +kernel
  have properties_archive : destination (.parse overlapping.properties) ≠
      destination (.parse overlapping.archive) := by decide +kernel
  obtain ⟨-, -, -, again⟩ := generate_again isTree_empty returned forward archive_staged
    properties_staged properties_archive
  exact ⟨isTree_empty, returned, forward, archive_staged, properties_staged, properties_archive,
    by decide +kernel, by decide +kernel, again⟩

end DottedKeys.Generate
