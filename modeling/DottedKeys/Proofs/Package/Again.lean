import DottedKeys.Proofs.Package

/-!
# Packaging again

Where an entry has been packaged, everything stands that packaging makes (`standing_of_steps`). Done
again with the same source, packaging finds its directories and stores what is there already, so
nothing is refused and nothing changes (`ends_package_of_standing`).
-/

namespace DottedKeys.Package

open DottedKeys.Action Disk

/-- What stands on a disk on which a source has been packaged, and what is known of the names it was
packaged under. -/
structure Standing (staging archive entry : Text) (contents : Bytes) (d : Disk) : Prop where
  above_flawless : FileName.flaw? (stagedPath staging entry).parent.text = none
  above : d.isDirectory (stagedPath staging entry).parent = true
  flawless : FileName.flaw? (stagedPath staging entry).text = none
  staged : d.find (stagedPath staging entry) = .ok (.file contents)
  placed : d.placeNamed archive = .ok (destination (.parse archive))
  archived : d.find (.parse archive) = .ok (.archive [⟨entry, Archive.deflated, contents⟩])
  nameable : Archive.nameFlaw? (Archive.memberName entry) = none

section Once

variable {staging archive entry : Text} {contents : Bytes} {before after : Disk}

theorem keepsDirectories_of_steps (steps : Steps staging archive entry contents before after) :
    KeepsDirectories before after := by
  obtain @⟨grown, written, l, copied, -, up, -, -, wrote, placed, -, -⟩ := steps
  obtain ⟨-, here, found, rfl⟩ := write_eq_ok_iff.1 wrote
  have staged := up.keepsDirectories.trans (keepsDirectories_of_place found (.file contents))
  exact staged.trans (keepsDirectories_of_place (place_of_placeNamed placed) _)

theorem isTree_of_steps (steps : Steps staging archive entry contents before after)
    (tree : before.IsTree) : after.IsTree := by
  obtain @⟨grown, written, l, copied, -, -, stays, -, wrote, placed, -, -⟩ := steps
  obtain ⟨-, here, found, rfl⟩ := write_eq_ok_iff.1 wrote
  exact isTree_put (isTree_put (stays tree) found _) (place_of_placeNamed placed) _

theorem standing_of_steps (steps : Steps staging archive entry contents before after)
    (apart : destination (.parse archive) ≠ destination (stagedPath staging entry)) :
    Standing staging archive entry contents after := by
  obtain ⟨staged, archived, -⟩ := packed_of_steps steps apart
  obtain @⟨grown, written, l, copied, above_flawless, -, -, above, wrote, placed, -, nameable⟩ := steps
  obtain ⟨flawless, here, found, rfl⟩ := write_eq_ok_iff.1 wrote
  have place := place_of_placeNamed placed
  obtain rfl := eq_destination_of_locate (place_eq_ok_iff.1 place).1
  have filled_keeps := keepsDirectories_of_place place
    (.archive [⟨Archive.memberName entry, Archive.deflated, copied⟩])
  have kept := (keepsDirectories_of_place found (.file contents)).trans filled_keeps
  have filled := (find_eq_ok_iff.1 archived).2
  exact ⟨above_flawless, isDirectory_of_keepsDirectories kept above, flawless, staged,
    placeNamed_of_keepsDirectories filled_keeps placed (by simp [filled]), archived, nameable⟩

end Once

/-! ## Steps that find what they make -/

variable {w : World}

theorem ends_settle_of_isDirectory {p : Path} (there : w.disk.isDirectory p = true) :
    Ends (settle p) w (fun _ after => after = w) (fun _ _ => False) := by
  rw [settle, ends_bind, ends_disk, makeDirectory_of_isDirectory there]
  simp only [there]
  exact ends_pure.2 rfl

theorem ends_settleFrom_of_isDirectory {anchor : Anchor} {reversed : List Text}
    (there : w.disk.isDirectory ⟨anchor, reversed.reverse⟩ = true) :
    Ends (settleFrom anchor reversed) w (fun _ after => after = w) (fun _ _ => False) := by
  cases reversed with
  | nil => exact ends_settle_of_isDirectory there
  | cons name above =>
    rw [settleFrom, ends_bind, ends_disk, makeDirectory_of_isDirectory there]
    exact ends_settle_of_isDirectory there

theorem ends_makeDirectories_of_isDirectory {p : Path} (flawless : FileName.flaw? p.text = none)
    (there : w.disk.isDirectory p = true) :
    Ends (makeDirectories p) w (fun _ after => after = w) (fun _ _ => False) := by
  rw [makeDirectories, flawless]
  apply ends_settleFrom_of_isDirectory
  rwa [List.reverse_reverse]

theorem ends_stage_of_isDirectory {staging entry contents : Text} {l : Location}
    (above_flawless : FileName.flaw? (stagedPath staging entry).parent.text = none)
    (above : w.disk.isDirectory (stagedPath staging entry).parent = true)
    (flawless : FileName.flaw? (stagedPath staging entry).text = none)
    (placed : w.disk.place (stagedPath staging entry) = .ok l) :
    Ends (stage staging entry contents) w
      (fun staged after => staged = stagedPath staging entry ∧
        after.disk = w.disk.put l (.file (Utf8.encode contents)))
      (fun _ _ => False) := by
  rw [stage]
  refine (ends_makeDirectories_of_isDirectory above_flawless above).bind ?_ fun _ _ => id
  rintro _ _ rfl
  rw [ends_bind, ends_disk, write_eq_ok_iff.2 ⟨flawless, l, placed, rfl⟩]
  exact ⟨rfl, rfl⟩

theorem ends_writeArchive_of_read {archive entry : Text} {staged : Path} {l : Location} {contents : Bytes}
    (placed : w.disk.placeNamed archive = .ok l)
    (read : (w.disk.put l (.file [])).read staged = .ok contents)
    (nameable : Archive.nameFlaw? (Archive.memberName entry) = none) :
    Ends (writeArchive archive staged entry) w
      (fun _ after => after.disk =
        w.disk.put l (.archive [⟨Archive.memberName entry, Archive.deflated, contents⟩]))
      (fun _ _ => False) := by
  rw [writeArchive, ends_bind, ends_disk, placed, ends_bind]
  refine ends_pure.2 ?_
  rw [ends_bind, ends_put, ends_bind, ends_disk, read, nameable]
  rw [ends_bind, ends_put, ends_bind, ends_report, ends_pure, Stream.written_transfer_single, put_put]

/-- Packaging what stands already returns the same entry and changes nothing. -/
theorem ends_package_of_standing {staging archive typeName contents suffix entry : Text}
    (named : entryName typeName suffix = .ok entry)
    (standing : Standing staging archive entry (Utf8.encode contents) w.disk)
    (apart : destination (.parse archive) ≠ destination (stagedPath staging entry)) :
    Ends (package staging archive typeName contents suffix) w
      (fun again after => again = entry ∧ ∀ l, after.disk.get? l = w.disk.get? l)
      (fun _ _ => False) := by
  obtain ⟨above_flawless, above, flawless, staged, placed, archived, nameable⟩ := standing
  obtain ⟨reached, held⟩ := find_eq_ok_iff.1 staged
  have free : w.disk.get? (destination (stagedPath staging entry)) ≠ some .directory := by simp [held]
  rw [package, named, ends_bind]
  refine ends_pure.2 ?_
  refine (ends_stage_of_isDirectory above_flawless above flawless
    (place_eq_ok_iff.2 ⟨reached, free⟩)).bind ?_ fun _ _ => id
  rintro _ between ⟨rfl, wrote⟩
  -- The file is written over itself, so all that stood on the disk still stands.
  have same : ∀ l, between.disk.get? l = w.disk.get? l := by
    rw [wrote]
    exact get?_put_of_get? held (by simp)
  have kept : KeepsDirectories w.disk between.disk := fun l there => (same l).trans there
  have filled := (same _).trans (find_eq_ok_iff.1 archived).2
  have free' : between.disk.get? (destination (.parse archive)) ≠ some .directory := by simp [filled]
  have placed' := placeNamed_of_keepsDirectories kept placed free'
  have still := find_of_locate (locate_of_keepsDirectories kept reached) ((same _).trans held)
  have read := read_of_find flawless (find_put_of_ne still free' (Ne.symm apart) (.file []))
  refine (ends_writeArchive_of_read placed' read nameable).bind ?_ fun _ _ => id
  intro _ after left
  rw [ends_bind, ends_report, ends_pure]
  refine ⟨rfl, fun l => ?_⟩
  show after.disk.get? l = _
  rw [left, memberName_eq_of_flaw? flawless, get?_put_of_get? filled (by simp), same]

end DottedKeys.Package
