import Mathlib.Data.List.Induction

/-!
# First occurrences

Tables and groups keep what they hold in the order in which it was first seen. That order is the
one that `List.eraseDups` gives; here is how it grows with the list.
-/

namespace DottedKeys.FirstSeen

variable {α β : Type} [BEq α] [LawfulBEq α]

/-- A known element adds nothing. -/
theorem eraseDups_concat_of_mem {seen : List α} {a : α} (known : a ∈ seen) :
    (seen ++ [a]).eraseDups = seen.eraseDups := by
  have nothing : [a].removeAll seen = [] := by simp [List.removeAll, known]
  rw [List.eraseDups_append, nothing, List.eraseDups_nil, List.append_nil]

/-- A new element goes to the end. -/
theorem eraseDups_concat_of_not_mem {seen : List α} {a : α} (new : a ∉ seen) :
    (seen ++ [a]).eraseDups = seen.eraseDups ++ [a] := by
  have itself : [a].removeAll seen = [a] := by simp [List.removeAll, new]
  have alone : [a].eraseDups = [a] := by simp [List.eraseDups_cons]
  rw [List.eraseDups_append, itself, alone]

theorem nodup_eraseDups (seen : List α) : seen.eraseDups.Nodup := by
  induction seen using List.reverseRecOn with
  | nil => exact .nil
  | append_singleton seen a ih =>
    by_cases known : a ∈ seen
    · rwa [eraseDups_concat_of_mem known]
    · rw [eraseDups_concat_of_not_mem known, List.nodup_append]
      refine ⟨ih, by simp, ?_⟩
      intro b inside c last
      rw [List.mem_singleton.1 last]
      rintro rfl
      exact known (List.mem_eraseDups.1 inside)

/-- What has been seen in a list is first seen at the same place in a longer one. -/
theorem findIdx_concat {f : β → Option α} {seen : List β} {a : α} (known : a ∈ seen.filterMap f)
    (x : β) :
    (seen ++ [x]).findIdx (fun y => f y == some a) =
        seen.findIdx (fun y => f y == some a) ∧
      seen.findIdx (fun y => f y == some a) < seen.length := by
  obtain ⟨y, member, found⟩ := List.mem_filterMap.1 known
  have inside : seen.findIdx (fun y => f y == some a) < seen.length :=
    List.findIdx_lt_length_of_exists ⟨y, member, by simpa using found⟩
  rw [List.findIdx_append, if_pos inside]
  exact ⟨rfl, inside⟩

/-- Of two elements of a list without repetitions the one that was seen first stands first. -/
theorem pairwise_eraseDups (f : β → Option α) (seen : List β) :
    (seen.filterMap f).eraseDups.Pairwise fun a b =>
      seen.findIdx (fun y => f y == some a) <
        seen.findIdx (fun y => f y == some b) := by
  induction seen using List.reverseRecOn with
  | nil => exact .nil
  | append_singleton seen x ih =>
    have old : (seen.filterMap f).eraseDups.Pairwise fun a b =>
        (seen ++ [x]).findIdx (fun y => f y == some a) <
          (seen ++ [x]).findIdx (fun y => f y == some b) := by
      apply ih.imp_of_mem
      intro a b first second before
      rw [(findIdx_concat (List.mem_eraseDups.1 first) x).1,
        (findIdx_concat (List.mem_eraseDups.1 second) x).1]
      exact before
    rw [List.filterMap_append]
    cases value : f x with
    | none => simpa [value] using old
    | some c =>
      have last : [x].filterMap f = [c] := by simp [value]
      rw [last]
      by_cases known : c ∈ seen.filterMap f
      · rwa [eraseDups_concat_of_mem known]
      · rw [eraseDups_concat_of_not_mem known, List.pairwise_append]
        refine ⟨old, List.pairwise_singleton _ _, ?_⟩
        intro a first b second
        rw [List.mem_singleton.1 second]
        obtain ⟨same, inside⟩ := findIdx_concat (List.mem_eraseDups.1 first) x
        have unseen : seen.findIdx (fun y => f y == some c) = seen.length := by
          apply List.findIdx_eq_length_of_false
          intro y member
          simpa using fun found => known (List.mem_filterMap.2 ⟨y, member, found⟩)
        rw [same, List.findIdx_append, unseen]
        simp only [Nat.lt_irrefl, if_false]
        omega

end DottedKeys.FirstSeen
