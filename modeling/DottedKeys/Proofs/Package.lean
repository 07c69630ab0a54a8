import DottedKeys.Package
import DottedKeys.Proofs.Action
import DottedKeys.Proofs.Disk.Path
import DottedKeys.Proofs.Disk.Tree
import DottedKeys.Proofs.Stream
import Mathlib.Data.List.TakeWhile

/-!
# What packaging leaves on a disk

Each step of packaging has one lemma that says how it ends, from any world and in every way in which
it can: `ends_makeDirectories`, `ends_stage`, `ends_writeArchive`, and `ends_steps` for all of them.
`Steps` lists the steps of a packaging that returns. What they leave on the disk, if the archive is
not the staged file itself, is put together in `packed_of_steps`.
-/

namespace DottedKeys.Package

open DottedKeys.Action Disk

/-- An operation on the disk that was tried and refused. -/
def Refused (failure : Failure) : Prop :=
  ∃ reason name, failure = .disk (.refused reason name)

/-- An operation on the disk that was refused, or was asked for under a text that is no name. -/
def Faulty (name : Text) (failure : Failure) : Prop :=
  ∃ fault, failure = .disk fault ∧ fault.IsOf name

theorem Refused.faulty {failure : Failure} (h : Refused failure) (name : Text) :
    Faulty name failure := by
  obtain ⟨reason, refused, rfl⟩ := h
  exact ⟨_, rfl, trivial⟩

/-- The ways in which packaging fails once the entry is named. The disk was asked for something
under one of three names, or the member cannot be named. -/
inductive Fails (staging archive entry : Text) : Failure → Prop where
  | disk {name : Text} {failure : Failure}
      (asked : name ∈ [(stagedPath staging entry).parent.text, (stagedPath staging entry).text, archive])
      (faulty : Faulty name failure) : Fails staging archive entry failure
  | member {flaw : NameFlaw} (flawed : Archive.nameFlaw? (Archive.memberName entry) = some flaw) :
      Fails staging archive entry (.memberName flaw)

/-- A world that differs from another by directories on the way to a path, each in a directory. -/
structure GrownTo (p : Path) (w after : World) : Prop where
  log : after.log = w.log
  grown : Grown (locationsOn p) w.disk after.disk
  isTree : w.disk.IsTree → after.disk.IsTree

theorem GrownTo.refl (p : Path) (w : World) : GrownTo p w w :=
  ⟨rfl, .refl _ _, id⟩

theorem GrownTo.trans {p : Path} {w between after : World} (first : GrownTo p w between)
    (second : GrownTo p between after) : GrownTo p w after :=
  ⟨second.log.trans first.log, first.grown.trans second.grown, second.isTree ∘ first.isTree⟩

/-! ## Directories -/

theorem ends_settle (p : Path) (rest : List Text) (w : World) :
    Ends (settle p) w
      (fun _ after => GrownTo ⟨p.anchor, p.names ++ rest⟩ w after ∧ after.disk.isDirectory p = true)
      (fun failure after => after = w ∧ Refused failure) := by
  rw [settle, ends_bind, ends_disk]
  split
  next d made =>
    rw [ends_setDisk]
    have grown : GrownTo ⟨p.anchor, p.names ++ rest⟩ w { w with disk := d } :=
      ⟨rfl, grown_makeDirectory made rest, fun tree => isTree_makeDirectory tree made⟩
    exact ⟨grown, isDirectory_of_makeDirectory made⟩
  next reason refused =>
    split
    next found => exact ends_pure.2 ⟨.refl _ w, (Bool.and_eq_true_iff.1 found).2⟩
    next => exact ends_throw.2 ⟨rfl, reason, _, rfl⟩

/-- Names that come in reverse are settled from the first on, as far as `rest` does not go on. -/
theorem ends_settleFrom (anchor : Anchor) (reversed rest : List Text) (w : World) :
    Ends (settleFrom anchor reversed) w
      (fun _ after => GrownTo ⟨anchor, reversed.reverse ++ rest⟩ w after ∧
        after.disk.isDirectory ⟨anchor, reversed.reverse⟩ = true)
      (fun failure after => GrownTo ⟨anchor, reversed.reverse ++ rest⟩ w after ∧ Refused failure) := by
  have stays : ∀ p : Path, ∀ w, ∀ failure after, after = w ∧ Refused failure →
      GrownTo p w after ∧ Refused failure := by
    rintro p w failure after ⟨rfl, refused⟩
    exact ⟨.refl p after, refused⟩
  induction reversed generalizing rest w with
  | nil => exact (ends_settle ⟨anchor, []⟩ rest w).mono (fun _ _ => id) (stays _ w)
  | cons name above ih =>
    have here := fun w => ends_settle ⟨anchor, (name :: above).reverse⟩ rest w
    rw [settleFrom, ends_bind, ends_disk]
    split
    next =>
      have along : above.reverse ++ (name :: rest) = (name :: above).reverse ++ rest := by simp
      have up := ih (name :: rest) w
      rw [along] at up
      refine up.bind (fun _ between ⟨grown, _⟩ => ?_) fun _ _ => id
      refine (here between).mono (fun _ after ⟨more, there⟩ => ⟨grown.trans more, there⟩)
        fun failure after ended => ?_
      obtain ⟨more, refused⟩ := stays _ between failure after ended
      exact ⟨grown.trans more, refused⟩
    next => exact (here w).mono (fun _ _ => id) (stays _ w)

/-- Making the directories of a path changes nothing but that it adds directories on the way, up to
one that the path leads to. -/
theorem ends_makeDirectories (p : Path) (w : World) :
    Ends (makeDirectories p) w
      (fun _ after => GrownTo p w after ∧ FileName.flaw? p.text = none ∧
        after.disk.isDirectory p = true)
      (fun failure after => GrownTo p w after ∧ Faulty p.text failure) := by
  rw [makeDirectories]
  split
  next flaw found => exact ends_throw.2 ⟨.refl p w, _, rfl, found⟩
  next flawless =>
    have settled := ends_settleFrom p.anchor p.names.reverse [] w
    rw [List.reverse_reverse, List.append_nil] at settled
    exact settled.mono (fun _ after ⟨grown, there⟩ => ⟨grown, flawless, there⟩)
      fun failure after ⟨grown, refused⟩ => ⟨grown, refused.faulty p.text⟩

/-! ## The staged file -/

theorem ends_stage (staging entry contents : Text) (w : World) :
    Ends (stage staging entry contents) w
      (fun staged after => staged = stagedPath staging entry ∧
        FileName.flaw? (stagedPath staging entry).parent.text = none ∧
        ∃ d, Grown (locationsOn (stagedPath staging entry).parent) w.disk d ∧
          (w.disk.IsTree → d.IsTree) ∧ d.isDirectory (stagedPath staging entry).parent = true ∧
          d.write (stagedPath staging entry) (Utf8.encode contents) = .ok after.disk ∧
          after.log = w.log ++ [.staged (stagedPath staging entry).text])
      (fun failure after => GrownTo (stagedPath staging entry).parent w after ∧
        ∃ name ∈ [(stagedPath staging entry).parent.text, (stagedPath staging entry).text],
          Faulty name failure) := by
  rw [stage]
  refine (ends_makeDirectories (stagedPath staging entry).parent w).bind
    (fun _ between ⟨grown, flawless, there⟩ => ?_)
    fun failure after ⟨grown, faulty⟩ => ⟨grown, _, by simp, faulty⟩
  rw [ends_bind, ends_disk, ends_bind, ends_ofExcept]
  refine ⟨fun written wrote => ?_, fun fault failed =>
    ⟨grown, (stagedPath staging entry).text, by simp, fault, rfl, isOf_of_write failed⟩⟩
  rw [ends_bind, ends_setDisk, ends_bind, ends_report, ends_pure]
  exact ⟨rfl, flawless, between.disk, grown.grown, grown.isTree, there, wrote, by rw [grown.log]⟩

/-! ## The archive -/

theorem ends_writeArchive (archive : Text) (staged : Path) (entry : Text) (w : World) :
    Ends (writeArchive archive staged entry) w
      (fun count after => ∃ l contents, w.disk.placeNamed archive = .ok l ∧
        (w.disk.put l (.file [])).read staged = .ok contents ∧
        Archive.nameFlaw? (Archive.memberName entry) = none ∧
        after.disk =
          w.disk.put l (.archive [⟨Archive.memberName entry, Archive.deflated, contents⟩]) ∧
        count = contents.length ∧ after.log = w.log ++ [.archived contents.length entry])
      (fun failure _ => Faulty archive failure ∨ Faulty staged.text failure ∨
        ∃ flaw, Archive.nameFlaw? (Archive.memberName entry) = some flaw ∧
          failure = .memberName flaw) := by
  rw [writeArchive, ends_bind, ends_disk, ends_bind, ends_ofExcept]
  refine ⟨fun l placed => ?_, fun fault failed => .inl ⟨fault, rfl, isOf_of_placeNamed failed⟩⟩
  rw [ends_bind, ends_put, ends_bind, ends_disk]
  split
  next fault unread =>
    rw [ends_bind, ends_put, ends_throw]
    exact .inr (.inl ⟨fault, rfl, isOf_of_read unread⟩)
  next contents flaw copied unnamed =>
    rw [ends_bind, ends_put, ends_throw]
    exact .inr (.inr ⟨flaw, unnamed, rfl⟩)
  next contents copied named =>
    rw [ends_bind, ends_put, ends_bind, ends_report, ends_pure, Stream.Transfer.count,
      Stream.written_transfer_single, put_put]
    exact ⟨l, contents, placed, copied, named, rfl, rfl, rfl⟩

/-- A staged file has a name on the disk only if no null stands in its entry, so the name of the
member is the whole entry. -/
theorem memberName_eq_of_flaw? {staging entry : Text}
    (flawless : FileName.flaw? (stagedPath staging entry).text = none) :
    Archive.memberName entry = entry := by
  have clear := (Text.flaw?_eq_none_iff.1 flawless).2
  refine Archive.memberName_eq_self fun member => ?_
  obtain ⟨name, among, inside⟩ := Path.exists_name_of_mem member (by decide)
  exact clear (Path.mem_text_of_mem_name (Path.mem_names_join_right among) inside)

/-! ## All steps -/

/-- The steps of packaging once the entry is named, if none is refused: the directories of the staged
file are made, the file is written, the archive is truncated, the file is read, and the archive is
filled. -/
inductive Steps (staging archive entry : Text) (contents : Bytes) (before : Disk) : Disk → Prop where
  | done {grown written : Disk} {l : Location} {copied : Bytes}
      (flawless : FileName.flaw? (stagedPath staging entry).parent.text = none)
      (up : Grown (locationsOn (stagedPath staging entry).parent) before grown)
      (tree : before.IsTree → grown.IsTree)
      (settled : grown.isDirectory (stagedPath staging entry).parent = true)
      (wrote : grown.write (stagedPath staging entry) contents = .ok written)
      (placed : written.placeNamed archive = .ok l)
      (read : (written.put l (.file [])).read (stagedPath staging entry) = .ok copied)
      (named : Archive.nameFlaw? (Archive.memberName entry) = none) :
      Steps staging archive entry contents before
        (written.put l (.archive [⟨Archive.memberName entry, Archive.deflated, copied⟩]))

/-- How packaging ends: with its steps done, or with the first failure of one of them. Nothing is
changed if the type name is at fault. -/
theorem ends_steps (staging archive typeName contents suffix : Text) (w : World) :
    Ends (package staging archive typeName contents suffix) w
      (fun entry after => entryName typeName suffix = .ok entry ∧
        Steps staging archive entry (Utf8.encode contents) w.disk after.disk)
      (fun failure after =>
        (∃ fault, entryName typeName suffix = .error fault ∧ failure = .typeName fault ∧ after = w) ∨
          ∃ entry, entryName typeName suffix = .ok entry ∧ Fails staging archive entry failure) := by
  rw [package, ends_bind, ends_ofExcept]
  refine ⟨fun entry named => ?_, fun fault failed => .inl ⟨fault, failed, rfl, rfl⟩⟩
  refine (ends_stage staging entry contents w).bind ?_ ?_
  · rintro _ between ⟨rfl, flawless, grown, up, tree, settled, wrote, -⟩
    refine (ends_writeArchive archive _ entry between).bind ?_ ?_
    · rintro _ after ⟨l, copied, placed, read, nameable, left, -, -⟩
      rw [ends_bind, ends_report, ends_pure]
      refine ⟨named, ?_⟩
      show Steps _ _ _ _ _ after.disk
      rw [left]
      exact .done flawless up tree settled wrote placed read nameable
    · rintro failure after (faulty | faulty | ⟨flaw, flawed, rfl⟩)
      · exact .inr ⟨entry, named, .disk (by simp) faulty⟩
      · exact .inr ⟨entry, named, .disk (by simp) faulty⟩
      · exact .inr ⟨entry, named, .member flawed⟩
  · rintro failure after ⟨-, name, asked, faulty⟩
    exact .inr ⟨entry, named, .disk (List.mem_append_left [archive] asked) faulty⟩

/-- What packaging leaves on a disk: the staged file, the archive with that file for its only
member, and everything else as it was, but for directories on the way to the staged file. -/
structure Packed (archive : Text) (file : Path) (entry : Text) (contents : Bytes) (before after : Disk) :
    Prop where
  staged : after.find file = .ok (.file contents)
  archived : after.find (.parse archive) = .ok (.archive [⟨entry, Archive.deflated, contents⟩])
  elsewhere : ∀ l, l ≠ destination file → l ≠ destination (.parse archive) →
    after.get? l = before.get? l ∨
      (l ∈ locationsOn file.parent ∧ before.get? l = none ∧ after.get? l = some .directory)

variable {staging archive entry : Text} {contents : Bytes} {before after : Disk}

theorem packed_of_steps (steps : Steps staging archive entry contents before after)
    (apart : destination (.parse archive) ≠ destination (stagedPath staging entry)) :
    Packed archive (stagedPath staging entry) entry contents before after := by
  obtain @⟨grown, written, l, copied, -, up, -, -, wrote, placed, read, -⟩ := steps
  obtain ⟨flawless, here, found, rfl⟩ := write_eq_ok_iff.1 wrote
  obtain ⟨reached, free⟩ := place_eq_ok_iff.1 found
  obtain ⟨reached', free'⟩ := place_eq_ok_iff.1 (place_of_placeNamed placed)
  obtain rfl := eq_destination_of_locate reached
  obtain rfl := eq_destination_of_locate reached'
  -- Whatever is stored for the archive leaves the staged file alone.
  have still := find_put_of_ne (find_put_self reached free (.file contents)) free' (Ne.symm apart)
  have copied_all : copied = contents :=
    Except.ok.inj (read.symm.trans (read_of_find flawless (still _)))
  rw [copied_all, memberName_eq_of_flaw? flawless]
  refine ⟨still _, find_put_self reached' free' _, fun other not_file not_archive => ?_⟩
  rw [get?_put_of_ne free' not_archive, get?_put_of_ne free not_file]
  exact up other

end DottedKeys.Package
