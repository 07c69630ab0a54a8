import DottedKeys.Text

/-!
# Names for the system

Some texts are handed to the system as names. The system takes names as bytes that end in a null, so
a name has to have bytes, and no null may stand inside it. A name without bytes counts as such even
if it holds a null too. Paths are such names in `load_properties`, `stage_source` and
`write_archive`, and so are the member of an archive and the encoding of a file.
-/

namespace DottedKeys

/-- What keeps a text from being a name. -/
inductive NameFlaw where
  /-- Some code point has no bytes. -/
  | unencodable
  /-- A null would end the name early. -/
  | null
deriving DecidableEq

/-- The code point that ends a name. -/
def CodePoint.null : CodePoint := '\x00'

/-- The flaw of a text as a name, if `hasBytes` tells which code points have bytes. -/
def Text.flaw? (hasBytes : CodePoint → Bool) (t : Text) : Option NameFlaw :=
  if !t.all hasBytes then some .unencodable
  else if t.contains .null then some .null
  else none

/-- A text is a name exactly if all of it has bytes and none of it is a null. -/
theorem Text.flaw?_eq_none_iff {hasBytes : CodePoint → Bool} {t : Text} :
    t.flaw? hasBytes = none ↔ (∀ c ∈ t, hasBytes c = true) ∧ CodePoint.null ∉ t := by
  rw [Text.flaw?]
  by_cases written : t.all hasBytes
  · have each := List.all_eq_true.1 written
    simp only [written, Bool.not_true, Bool.false_eq_true, if_false, List.contains_eq_mem]
    constructor
    · intro none_flawed
      refine ⟨each, fun inside => ?_⟩
      simp [inside] at none_flawed
    · rintro ⟨_, outside⟩
      simp [outside]
  · have missing := mt List.all_eq_true.2 written
    simp only [written, Bool.not_false, if_true]
    constructor
    · intro h
      contradiction
    · rintro ⟨each, _⟩
      exact absurd each missing

end DottedKeys
