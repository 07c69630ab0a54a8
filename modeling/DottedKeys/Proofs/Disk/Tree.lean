import DottedKeys.Proofs.Disk.Walk

/-!
# Disks as trees

What stands on a disk stands in a directory (`IsTree`), and to store something at the end of a path
keeps it so (`isTree_put`). On such a disk names that do not lead back reach whatever stands where they
lead (`locate_of_isTree`), so the directories that are made on the way to a path do not matter to
whether it can be read (`read_eq_ok_iff_of_isTree`).
-/

namespace DottedKeys

/-- The location that another one stands in. -/
def Location.parent (l : Location) : Location :=
  ⟨l.absolute, l.names.dropLast⟩

namespace Disk

variable {d d' : Disk} {p : Path} {here l : Location} {names : List FileName}

/-- Whatever stands on a disk stands in a directory. -/
def IsTree (d : Disk) : Prop :=
  ∀ l, d.get? l ≠ none → d.get? l.parent = some .directory

theorem get?_of_isTop (top : l.isTop = true) : d.get? l = some .directory := by
  rw [get?, if_pos top]

/-- Only the entries have to be looked at. -/
theorem isTree_of_entries (h : ∀ entry ∈ d.entries, d.get? entry.1.parent = some .directory) :
    d.IsTree := by
  intro l there
  by_cases top : l.isTop = true
  · refine get?_of_isTop (List.all_eq_true.2 fun name among => ?_)
    exact List.all_eq_true.1 top name (List.dropLast_subset _ among)
  · rw [get?, if_neg top] at there
    obtain ⟨e, found⟩ := Option.ne_none_iff_exists'.1 there
    obtain ⟨before, after, whole, -⟩ := List.lookup_eq_some_iff.1 found
    exact h (l, e) (by simp [whole])

theorem isTree_empty : empty.IsTree :=
  isTree_of_entries fun _ none => absurd none List.not_mem_nil

/-! ## Storing -/

/-- One name further or back from a directory is a location in a directory. -/
theorem get?_parent_step (tree : d.IsTree) (there : d.get? here = some .directory) (name : FileName) :
    d.get? (here.step name).parent = some .directory := by
  have above := tree here (by simp [there])
  rw [Location.step]
  split
  next => simpa [Location.parent] using there
  next =>
    split
    next bare =>
      split
      next => exact above
      next => exact get?_of_isTop rfl
    next last =>
      split
      next => simpa [Location.parent] using there
      next => exact tree here.parent (by simp [above])

/-- What a walk from a directory leads to is in a directory. -/
theorem get?_parent_of_walk (tree : d.IsTree) (there : d.get? here = some .directory)
    (h : d.walk here names = .ok l) : d.get? l.parent = some .directory := by
  induction names generalizing here with
  | nil =>
    obtain rfl := Except.ok.inj h
    exact tree here (by simp [there])
  | cons name rest ih =>
    rw [walk] at h
    split at h
    next => contradiction
    next =>
      split at h
      next =>
        obtain rfl := Except.ok.inj h
        exact get?_parent_step tree there name
      next =>
        split at h
        next between => exact ih between h
        next => contradiction
        next => contradiction

theorem get?_parent_of_locate (tree : d.IsTree) (h : d.locate p = .ok l) :
    d.get? l.parent = some .directory := by
  rw [locate] at h
  split at h
  next => contradiction
  next => exact get?_parent_of_walk tree (get?_of_isTop rfl) h

/-- A disk is still a tree when something is stored where a path leads. -/
theorem isTree_put (tree : d.IsTree) (h : d.place p = .ok l) (e : Entry) : (d.put l e).IsTree := by
  obtain ⟨reached, free⟩ := place_eq_ok_iff.1 h
  have keeps := keepsDirectories_put free e
  intro other there
  by_cases same : other = l
  · rw [same]
    exact keeps _ (get?_parent_of_locate tree reached)
  · rw [get?_put_of_ne free same] at there
    exact keeps _ (tree other there)

theorem isTree_makeDirectory (tree : d.IsTree) (h : d.makeDirectory p = .ok d') : d'.IsTree := by
  obtain ⟨reached, bare, rfl⟩ := makeDirectory_eq_ok_iff.1 h
  exact isTree_put tree (place_eq_ok_iff.2 ⟨reached, by simp [bare]⟩) _

/-! ## Walking -/

/-- What stands on the way to something is a directory. -/
theorem get?_of_append (tree : d.IsTree) {absolute : Bool} {names more : List FileName}
    (there : d.get? ⟨absolute, names ++ more⟩ ≠ none) (some_more : more ≠ []) :
    d.get? ⟨absolute, names⟩ = some .directory := by
  induction more generalizing names with
  | nil => exact absurd rfl some_more
  | cons name more ih =>
    have next : d.get? ⟨absolute, names ++ [name]⟩ ≠ none := by
      cases more with
      | nil => exact there
      | cons second more =>
        rw [← List.singleton_append, ← List.append_assoc] at there
        simp [ih there (by simp)]
    simpa [Location.parent] using tree _ next

theorem length_le_of_walk (h : d.walk here names = .ok l) :
    ∀ name ∈ names, name.length ≤ FileName.longest := by
  induction names generalizing here with
  | nil => exact fun name none => absurd none List.not_mem_nil
  | cons name rest ih =>
    rw [walk] at h
    split at h
    next => contradiction
    next fits =>
      refine List.forall_mem_cons.2 ⟨Nat.le_of_not_lt fits, ?_⟩
      split at h
      next last =>
        rw [last]
        exact fun other none => absurd none List.not_mem_nil
      next =>
        split at h
        next => exact ih h
        next => contradiction
        next => contradiction

/-- Names that do not lead back reach what stands where they lead. -/
theorem walk_of_isTree (tree : d.IsTree) (forward : Location.back ∉ names)
    (fit : ∀ name ∈ names, name.length ≤ FileName.longest)
    (there : d.get? ⟨here.absolute, here.names ++ names⟩ ≠ none) :
    d.walk here names = .ok ⟨here.absolute, here.names ++ names⟩ := by
  induction names generalizing here with
  | nil => rw [walk, List.append_nil]
  | cons name rest ih =>
    obtain ⟨first, later⟩ := not_or.1 (mt List.mem_cons.2 forward)
    obtain ⟨fits, fit⟩ := List.forall_mem_cons.1 fit
    have step : here.step name = ⟨here.absolute, here.names ++ [name]⟩ := by
      rw [Location.step, if_pos (Ne.symm first)]
    have along : here.names ++ name :: rest = here.names ++ [name] ++ rest := by simp
    rw [along] at there ⊢
    rw [walk, if_neg (Nat.not_lt_of_le fits), step]
    split
    next last => rw [last, List.append_nil]
    next more =>
      rw [get?_of_append tree there more]
      exact ih later fit there

/-- A path that does not lead back, and that leads somewhere on another disk, leads there wherever
something stands there. -/
theorem locate_of_isTree (tree : d.IsTree) (forward : (".." : Text) ∉ p.names)
    (h : d'.locate p = .ok l) (there : d.get? l ≠ none) : d.locate p = .ok l := by
  have ends := eq_destination_of_locate h
  rw [destination, foldl_step_of_forward (back_not_mem_map_ofText forward)] at ends
  rw [locate] at h ⊢
  split at h
  next => contradiction
  next fits =>
    rw [if_neg fits]
    subst ends
    exact walk_of_isTree tree (back_not_mem_map_ofText forward) (length_le_of_walk h) there

/-! ## Reading -/

/-- If a disk gets no directories but where nothing stood, a path that does not lead back can be read
as before. -/
theorem read_eq_ok_iff_of_isTree (tree : d.IsTree) (keeps : KeepsDirectories d d')
    (forward : (".." : Text) ∉ p.names)
    (same : d'.get? (destination p) = d.get? (destination p) ∨
      d.get? (destination p) = none ∧ d'.get? (destination p) = some .directory) {contents : Bytes} :
    d'.read p = .ok contents ↔ d.read p = .ok contents := by
  simp only [read_eq_ok_iff, find_eq_ok_iff]
  refine and_congr_right fun _ => exists_congr fun e => ?_
  constructor
  · rintro ⟨⟨reached, there⟩, bytes⟩
    rcases same with same | ⟨-, made⟩
    · rw [same] at there
      exact ⟨⟨locate_of_isTree tree forward reached (by simp [there]), there⟩, bytes⟩
    · obtain rfl := Option.some.inj (made.symm.trans there)
      contradiction
  · rintro ⟨⟨reached, there⟩, bytes⟩
    rcases same with same | ⟨bare, -⟩
    · exact ⟨⟨locate_of_keepsDirectories keeps reached, same.trans there⟩, bytes⟩
    · rw [bare] at there
      contradiction

end Disk

end DottedKeys
