import DottedKeys.Proofs.Disk.Archive.Open
import DottedKeys.Proofs.Generate.Outcome

/-!
# Opening what a run leaves

An archive stands on the disk as its members, and is read as its container. Opened, these bytes give
the members again, so that a copy of an archive is as good as the archive (`members?_of_bytes?`). Read
back from the disk, the archive of a run holds what the staged file holds (`opened_of_generate`).
-/

namespace DottedKeys

/-- The bytes that an archive is read as open as its members. -/
theorem Entry.members?_of_bytes? {members : List Member} (fits : Archive.Fits members) {bytes : Bytes}
    (read : (archive members).bytes? = some bytes) :
    (file bytes).members? = (archive members).members? := by
  obtain rfl : Archive.container members = bytes := Option.some.inj read
  exact Archive.open?_container fits

/-- A path whose text was a name is one that can be asked for. -/
theorem FileName.flaw?_text_parse {t : Text} (flawless : flaw? t = none) :
    flaw? (Path.parse t).text = none := by
  by_contra flawed
  obtain ⟨c, member, spoilt⟩ := flaw?_ne_none_iff.1 flawed
  rcases Path.mem_text member with filler | ⟨name, among, inside⟩
  · exact not_spoils_of_isPlain (isPlain_of_isFiller filler) spoilt
  · exact flaw?_ne_none_iff.2 ⟨c, Path.mem_of_mem_names_parse among inside, spoilt⟩ flawless

namespace Package

open Disk

section Packaged

variable {staging archive entry : Text} {contents : Bytes} {before after : Disk}

theorem flawless_of_steps (steps : Steps staging archive entry contents before after) :
    FileName.flaw? (stagedPath staging entry).text = none := by
  obtain @⟨grown, written, l, copied, -, -, -, -, wrote, -, -, -⟩ := steps
  exact (write_eq_ok_iff.1 wrote).1

/-- The archive of a packaging is read as bytes that open as its only member. -/
theorem opened_of_steps (steps : Steps staging archive entry contents before after)
    (apart : destination (.parse archive) ≠ destination (stagedPath staging entry))
    (short : (Utf8.encode entry).length < 0x10000) (small : contents.length < 0x80000000) :
    ∃ bytes, after.read (.parse archive) = .ok bytes ∧
      Archive.open? bytes = some [⟨entry, Archive.deflated, contents⟩] := by
  have packed := packed_of_steps steps apart
  have whole := memberName_eq_of_flaw? (flawless_of_steps steps)
  obtain @⟨grown, written, l, copied, -, -, -, -, -, placed, -, nameable⟩ := steps
  rw [whole] at nameable
  have flawless := FileName.flaw?_text_parse (placeNamed_eq_ok_iff.1 placed).1
  exact ⟨_, read_eq_ok_iff.2 ⟨flawless, _, packed.archived, rfl⟩,
    Archive.open?_container (Archive.fits_singleton rfl nameable short small)⟩

end Packaged

end Package

namespace Generate

open Disk Package

variable [Codecs]

/-- **The archive of a run opens.** After a run that returns, the staged file can be read, the archive
is read as bytes, and these open as one member with the name that was returned and the contents of the
staged file. -/
theorem opened_of_generate {c : Config} {d : Disk} {entry : Text}
    (returned : ((generate c).perform d).result = .ok entry)
    (apart : destination (.parse c.archive) ≠ destination (stagedPath c.staging entry))
    (short : (Utf8.encode entry).length < 0x10000) :
    ∃ contents, ((generate c).perform d).disk.read (stagedPath c.staging entry) = .ok contents ∧
      (contents.length < 0x80000000 →
        ∃ bytes, ((generate c).perform d).disk.read (.parse c.archive) = .ok bytes ∧
          Archive.open? bytes = some [⟨entry, Archive.deflated, contents⟩]) := by
  obtain ⟨layout, contents, -, -, -, -, steps⟩ := (ends_generate_steps c ⟨d, []⟩).returned returned
  have staged := (packed_of_steps steps apart).staged
  exact ⟨_, read_of_find (flawless_of_steps steps) staged, opened_of_steps steps apart short⟩

end Generate

end DottedKeys
