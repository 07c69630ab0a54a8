import DottedKeys.Package
import DottedKeys.Proofs.Disk.Path

/-!
# Entry names

A type name spells an entry name exactly if none of its segments is empty (`entryName_eq_ok_iff`).
The code points of an entry name, and those of the path under which the entry is staged, come from
the texts they were made of, slashes and dots apart.
-/

namespace DottedKeys.Package

open DottedKeys.Path

variable {typeName suffix staging entry : Text} {c : CodePoint}

theorem entryName_eq_ok_iff :
    entryName typeName suffix = .ok entry ↔
      [] ∉ typeName.splitOn Key.dot ∧ entry = (ofTexts (typeName.splitOn Key.dot)).text ++ suffix := by
  have gap : ((typeName.splitOn Key.dot).any List.isEmpty = true) ↔ [] ∈ typeName.splitOn Key.dot := by
    simp [List.any_eq_true, List.isEmpty_iff]
  rw [entryName]
  cases typeName with
  | nil => simp [Text.splitOn]
  | cons first rest =>
    rw [List.isEmpty_cons, if_neg Bool.false_ne_true]
    dsimp only
    split
    next empty => simp [gap.1 empty]
    next solid => simp [mt gap.2 solid, eq_comm]

end DottedKeys.Package
