import DottedKeys.Disk.Image
import DottedKeys.Proofs.Disk.Path

/-!
# Walks on a changing disk

Where a path leads is a matter of its names (`destination`); whether it leads there at all is a
matter of the directories on the way. A disk that keeps its directories keeps what can be reached
(`locate_of_keepsDirectories`), and both ways of changing a disk keep them: to store under a
location where no directory stands, and to grow by directories where nothing stands.
-/

namespace DottedKeys.Disk

variable {d d' : Disk} {p : Path} {l : Location}

/-! ## Destinations -/

/-- The location that a path leads to if it leads anywhere. -/
def destination (p : Path) : Location :=
  (p.names.map FileName.ofText).foldl Location.step (top p)

theorem eq_foldl_of_walk {here : Location} {names : List FileName} (h : d.walk here names = .ok l) :
    l = names.foldl Location.step here := by
  induction names generalizing here with
  | nil => exact (Except.ok.inj h).symm
  | cons name rest ih =>
    rw [walk] at h
    split at h
    next => contradiction
    next =>
      split at h
      next last =>
        rw [last]
        exact (Except.ok.inj h).symm
      next =>
        split at h
        next => exact ih h
        next => contradiction
        next => contradiction

theorem eq_destination_of_locate (h : d.locate p = .ok l) : l = destination p := by
  rw [locate] at h
  split at h
  next => contradiction
  next => exact eq_foldl_of_walk h

theorem foldl_step_mem_stepsFrom {names : List FileName} (some_name : names ≠ []) (here : Location)
    (rest : List FileName) : names.foldl Location.step here ∈ stepsFrom here (names ++ rest) := by
  induction names generalizing here with
  | nil => exact absurd rfl some_name
  | cons name names ih =>
    rw [List.cons_append, stepsFrom, List.foldl_cons]
    cases names with
    | nil => exact List.mem_cons_self
    | cons next names => exact List.mem_cons_of_mem _ (ih (by simp) _)

/-- A path with names leads to a location on each path that goes on from it. -/
theorem destination_mem_locationsOn {anchor : Anchor} {names : List Text} (some_name : names ≠ [])
    (rest : List Text) : destination ⟨anchor, names⟩ ∈ locationsOn ⟨anchor, names ++ rest⟩ := by
  rw [destination, locationsOn, List.map_append]
  exact foldl_step_mem_stepsFrom (by simpa using some_name) _ _

/-- Names that do not lead back lead on from where they start. -/
theorem foldl_step_of_forward {names : List FileName} (forward : Location.back ∉ names)
    (here : Location) :
    names.foldl Location.step here = ⟨here.absolute, here.names ++ names⟩ := by
  induction names generalizing here with
  | nil => rw [List.foldl_nil, List.append_nil]
  | cons name names ih =>
    obtain ⟨first, later⟩ := not_or.1 (mt List.mem_cons.2 forward)
    rw [List.foldl_cons, Location.step, if_pos (Ne.symm first), ih later, List.append_assoc]
    rfl

theorem back_not_mem_map_ofText {names : List Text} (forward : (".." : Text) ∉ names) :
    Location.back ∉ names.map FileName.ofText := by
  intro inside
  obtain ⟨name, among, same⟩ := List.mem_map.1 inside
  exact forward (FileName.ofText_eq_dots_iff.1 same ▸ among)

theorem destination_append (anchor : Anchor) (names : List Text) {more : List Text}
    (forward : (".." : Text) ∉ more) :
    destination ⟨anchor, names ++ more⟩ =
      ⟨(destination ⟨anchor, names⟩).absolute,
        (destination ⟨anchor, names⟩).names ++ more.map FileName.ofText⟩ := by
  rw [destination, List.map_append, List.foldl_append,
    foldl_step_of_forward (back_not_mem_map_ofText forward)]
  rfl

/-! ## What is kept -/

/-- All directories of the first disk are directories of the second. -/
def KeepsDirectories (d d' : Disk) : Prop :=
  ∀ l, d.get? l = some .directory → d'.get? l = some .directory

theorem KeepsDirectories.trans {d'' : Disk} (first : KeepsDirectories d d')
    (second : KeepsDirectories d' d'') : KeepsDirectories d d'' :=
  fun l there => second l (first l there)

theorem walk_of_keepsDirectories (keeps : KeepsDirectories d d') {here : Location}
    {names : List FileName} (h : d.walk here names = .ok l) : d'.walk here names = .ok l := by
  induction names generalizing here with
  | nil => exact h
  | cons name rest ih =>
    rw [walk] at h ⊢
    split at h
    next => contradiction
    next fits =>
      rw [if_neg fits]
      split at h
      next last => rwa [if_pos last]
      next more =>
        rw [if_neg more]
        split at h
        next there =>
          rw [keeps _ there]
          exact ih h
        next => contradiction
        next => contradiction

/-- A path that leads somewhere still does so while directories are kept. -/
theorem locate_of_keepsDirectories (keeps : KeepsDirectories d d') (h : d.locate p = .ok l) :
    d'.locate p = .ok l := by
  rw [locate] at h ⊢
  split at h
  next => contradiction
  next fits =>
    rw [if_neg fits]
    exact walk_of_keepsDirectories keeps h

theorem find_of_locate (h : d.locate p = .ok l) {e : Entry} (there : d.get? l = some e) :
    d.find p = .ok e := by
  simp [find, h, there, bind, Except.bind]

theorem find_eq_ok_iff {e : Entry} :
    d.find p = .ok e ↔ d.locate p = .ok (destination p) ∧ d.get? (destination p) = some e := by
  constructor
  · intro found
    cases reached : d.locate p with
    | error reason => simp [find, reached, bind, Except.bind] at found
    | ok l =>
      obtain rfl := eq_destination_of_locate reached
      cases there : d.get? (destination p) with
      | none => simp [find, reached, there, bind, Except.bind] at found
      | some other =>
        obtain rfl : other = e := by simpa [find, reached, there, bind, Except.bind] using found
        exact ⟨rfl, rfl⟩
  · rintro ⟨reached, there⟩
    exact find_of_locate reached there

theorem isDirectory_iff :
    d.isDirectory p = true ↔
      d.locate p = .ok (destination p) ∧ d.get? (destination p) = some .directory := by
  rw [← find_eq_ok_iff, isDirectory]
  cases d.find p with
  | error reason => simp
  | ok e => cases e <;> simp

theorem isDirectory_of_keepsDirectories (keeps : KeepsDirectories d d') (h : d.isDirectory p = true) :
    d'.isDirectory p = true := by
  obtain ⟨reached, there⟩ := isDirectory_iff.1 h
  exact isDirectory_iff.2 ⟨locate_of_keepsDirectories keeps reached, keeps _ there⟩

/-! ## Storing -/

theorem isTop_eq_false (free : d.get? l ≠ some .directory) : l.isTop = false := by
  cases top : l.isTop with
  | false => rfl
  | true => exact absurd (by simp [get?, top]) free

theorem get?_put_self (free : d.get? l ≠ some .directory) (e : Entry) :
    (d.put l e).get? l = some e := by
  rw [get?_put d l l e (isTop_eq_false free), if_pos rfl]

theorem get?_put_of_ne (free : d.get? l ≠ some .directory) {other : Location} (apart : other ≠ l)
    (e : Entry) : (d.put l e).get? other = d.get? other := by
  rw [get?_put d l other e (isTop_eq_false free), if_neg apart]

/-- What is stored last stays. -/
theorem put_put (d : Disk) (l : Location) (e e' : Entry) : (d.put l e).put l e' = d.put l e' := by
  simp [put, List.filter_filter]

/-- To store what is there changes nothing. -/
theorem get?_put_of_get? {e : Entry} (there : d.get? l = some e) (no_directory : e ≠ .directory)
    (other : Location) : (d.put l e).get? other = d.get? other := by
  have free : d.get? l ≠ some .directory := by simpa [there] using no_directory
  by_cases same : other = l
  · rw [same, get?_put_self free, there]
  · exact get?_put_of_ne free same e

theorem keepsDirectories_put (free : d.get? l ≠ some .directory) (e : Entry) :
    KeepsDirectories d (d.put l e) := by
  intro other there
  have apart : other ≠ l := by
    rintro rfl
    exact free there
  rwa [get?_put_of_ne free apart]

theorem find_put_self (h : d.locate p = .ok l) (free : d.get? l ≠ some .directory) (e : Entry) :
    (d.put l e).find p = .ok e :=
  find_of_locate (locate_of_keepsDirectories (keepsDirectories_put free e) h) (get?_put_self free e)

theorem find_put_of_ne {there : Entry} (h : d.find p = .ok there) (free : d.get? l ≠ some .directory)
    (apart : destination p ≠ l) (e : Entry) : (d.put l e).find p = .ok there := by
  obtain ⟨reached, held⟩ := find_eq_ok_iff.1 h
  refine find_of_locate (locate_of_keepsDirectories (keepsDirectories_put free e) reached) ?_
  rw [get?_put_of_ne free apart, held]

theorem place_eq_ok_iff : d.place p = .ok l ↔ d.locate p = .ok l ∧ d.get? l ≠ some .directory := by
  unfold place
  cases found : d.locate p with
  | error reason => simp [bind, Except.bind]
  | ok here =>
    rw [Except.ok.injEq]
    dsimp only [bind, Except.bind]
    split
    next there =>
      constructor
      · intro h
        contradiction
      · rintro ⟨rfl, free⟩
        exact absurd there free
    next free =>
      constructor
      · intro same
        obtain rfl := Except.ok.inj same
        exact ⟨rfl, free⟩
      · exact fun reached => congrArg Except.ok reached.1

theorem keepsDirectories_of_place (h : d.place p = .ok l) (e : Entry) :
    KeepsDirectories d (d.put l e) :=
  keepsDirectories_put (place_eq_ok_iff.1 h).2 e

/-! ## Growing -/

/-- The second disk is the first one with directories in addition, at some of these locations. -/
def Grown (among : List Location) (d d' : Disk) : Prop :=
  ∀ l, d'.get? l = d.get? l ∨ (l ∈ among ∧ d.get? l = none ∧ d'.get? l = some .directory)

namespace Grown

variable {among : List Location}

theorem refl (among : List Location) (d : Disk) : Grown among d d :=
  fun _ => .inl rfl

theorem trans {d'' : Disk} (first : Grown among d d') (second : Grown among d' d'') :
    Grown among d d'' := by
  intro l
  rcases first l with same | ⟨inside, bare, made⟩
  · rw [← same]
    exact second l
  · rcases second l with same | ⟨-, bare', -⟩
    · exact .inr ⟨inside, bare, same.trans made⟩
    · rw [made] at bare'
      contradiction

theorem keepsDirectories (h : Grown among d d') : KeepsDirectories d d' := by
  intro l there
  rcases h l with same | ⟨-, bare, -⟩
  · rw [same, there]
  · rw [there] at bare
    contradiction

end Grown

theorem makeDirectory_eq_ok_iff :
    d.makeDirectory p = .ok d' ↔ d.locate p = .ok (destination p) ∧ d.get? (destination p) = none ∧
      d' = d.put (destination p) .directory := by
  cases found : d.locate p with
  | error reason => simp [makeDirectory, found, bind, Except.bind]
  | ok l =>
    obtain rfl := eq_destination_of_locate found
    cases there : d.get? (destination p) <;>
      simp [makeDirectory, found, there, bind, Except.bind, eq_comm]

theorem makeDirectory_of_isDirectory (h : d.isDirectory p = true) :
    d.makeDirectory p = .error .occupied := by
  obtain ⟨reached, there⟩ := isDirectory_iff.1 h
  simp [makeDirectory, reached, there, bind, Except.bind]

theorem isDirectory_of_makeDirectory (h : d.makeDirectory p = .ok d') : d'.isDirectory p = true := by
  obtain ⟨reached, bare, rfl⟩ := makeDirectory_eq_ok_iff.1 h
  have free : d.get? (destination p) ≠ some .directory := by simp [bare]
  exact isDirectory_iff.2
    ⟨locate_of_keepsDirectories (keepsDirectories_put free _) reached, get?_put_self free _⟩

/-- A directory that is made stands where its path leads, and nothing stood there. -/
theorem grown_makeDirectory (h : d.makeDirectory p = .ok d') (rest : List Text) :
    Grown (locationsOn ⟨p.anchor, p.names ++ rest⟩) d d' := by
  obtain ⟨-, bare, rfl⟩ := makeDirectory_eq_ok_iff.1 h
  have free : d.get? (destination p) ≠ some .directory := by simp [bare]
  have some_name : p.names ≠ [] := by
    intro none_named
    have top := isTop_eq_false free
    simp [destination, Disk.top, none_named, Location.isTop] at top
  intro other
  by_cases same : other = destination p
  · rw [same, bare, get?_put_self free]
    exact .inr ⟨destination_mem_locationsOn some_name rest, rfl, rfl⟩
  · exact .inl (get?_put_of_ne free same _)

/-! ## Operations -/

/-- A fault of an operation that was asked for under a text: the operation was refused, or the text
is no name. -/
def Fault.IsOf (name : Text) : Fault → Prop
  | .refused .. => True
  | .flawed flaw => FileName.flaw? name = some flaw

theorem isOf_of_read {fault : Fault} (h : d.read p = .error fault) : fault.IsOf p.text := by
  unfold read at h
  split at h
  next flaw _ found =>
    rw [← Except.error.inj h]
    exact found
  next =>
    rw [← Except.error.inj h]
    trivial
  next =>
    split at h
    next => contradiction
    next =>
      rw [← Except.error.inj h]
      trivial

theorem isOf_of_write {contents : Bytes} {fault : Fault} (h : d.write p contents = .error fault) :
    fault.IsOf p.text := by
  unfold write at h
  split at h
  next flaw _ found =>
    rw [← Except.error.inj h]
    exact found
  next => contradiction
  next =>
    rw [← Except.error.inj h]
    trivial

/-- A file that is written stands where its path leads, and the path is a name. -/
theorem write_eq_ok_iff {contents : Bytes} :
    d.write p contents = .ok d' ↔
      FileName.flaw? p.text = none ∧ ∃ l, d.place p = .ok l ∧ d' = d.put l (.file contents) := by
  unfold write
  cases FileName.flaw? p.text with
  | some flaw => simp
  | none => cases d.place p <;> simp [eq_comm]

theorem isOf_of_placeNamed {name : Text} {fault : Fault} (h : d.placeNamed name = .error fault) :
    fault.IsOf name := by
  unfold placeNamed at h
  split at h
  next flaw found =>
    rw [← Except.error.inj h]
    exact found
  next =>
    dsimp only at h
    generalize (if name.isEmpty then _ else _ : Except Reason Location) = found at h
    cases found with
    | error reason =>
      rw [← Except.error.inj h]
      trivial
    | ok l => contradiction

theorem mapError_eq_ok_iff {ε ε' α : Type} {f : ε → ε'} {computed : Except ε α} {value : α} :
    computed.mapError f = .ok value ↔ computed = .ok value := by
  cases computed with
  | error fault => exact iff_of_false nofun nofun
  | ok other =>
    constructor
    · intro same
      exact congrArg Except.ok (Except.ok.inj same)
    · intro same
      exact congrArg Except.ok (Except.ok.inj same)

/-- Where a name as the user gave it leads is a matter of the name and of where its path leads. -/
theorem placeNamed_eq_ok_iff {name : Text} :
    d.placeNamed name = .ok l ↔ FileName.flaw? name = none ∧ name ≠ [] ∧ isTooLong name = false ∧
      Path.endsInDot name = false ∧ name.getLast? ≠ some Path.slash ∧
      d.place (.parse name) = .ok l := by
  unfold placeNamed
  cases FileName.flaw? name with
  | some flaw => simp
  | none =>
    dsimp only
    rw [mapError_eq_ok_iff]
    split
    next bare => simp [List.isEmpty_iff.1 bare]
    next filled =>
      have some_name : name ≠ [] := mt List.isEmpty_iff.2 filled
      split
      next long => simp [long]
      next fits =>
        split
        next dot => simp [dot]
        next no_dot =>
          split
          next slash => simp [slash]
          next no_slash => simp [some_name, fits, no_dot, no_slash]

/-- A name as the user gave it leads where its path does. -/
theorem place_of_placeNamed {name : Text} (h : d.placeNamed name = .ok l) :
    d.place (.parse name) = .ok l := by
  obtain ⟨-, -, -, -, -, placed⟩ := placeNamed_eq_ok_iff.1 h
  exact placed

/-- A name that leads to a place still does so while directories are kept, unless a directory has come
to stand there. -/
theorem placeNamed_of_keepsDirectories (keeps : KeepsDirectories d d') {name : Text}
    (h : d.placeNamed name = .ok l) (free : d'.get? l ≠ some .directory) :
    d'.placeNamed name = .ok l := by
  obtain ⟨flawless, some_name, fits, no_dot, no_slash, placed⟩ := placeNamed_eq_ok_iff.1 h
  have reached := locate_of_keepsDirectories keeps (place_eq_ok_iff.1 placed).1
  exact placeNamed_eq_ok_iff.2
    ⟨flawless, some_name, fits, no_dot, no_slash, place_eq_ok_iff.2 ⟨reached, free⟩⟩

theorem read_eq_ok_iff {contents : Bytes} :
    d.read p = .ok contents ↔ FileName.flaw? p.text = none ∧
      ∃ e, d.find p = .ok e ∧ e.bytes? = some contents := by
  unfold read
  cases FileName.flaw? p.text with
  | some flaw => simp
  | none =>
    cases d.find p with
    | error reason => simp
    | ok e => cases e <;> simp [Entry.bytes?]

/-- What cannot be read is refused exactly if its path is a name. -/
theorem isRefusal_iff_of_read {fault : Fault} (h : d.read p = .error fault) :
    fault.isRefusal = true ↔ FileName.flaw? p.text = none := by
  cases fault with
  | refused reason name =>
    refine iff_of_true rfl ?_
    cases flaw : FileName.flaw? p.text with
    | none => rfl
    | some flaw => simp [read, flaw] at h
  | flawed flaw =>
    have flawed : FileName.flaw? p.text = some flaw := isOf_of_read h
    simp [Fault.isRefusal, flawed]

theorem read_of_find (flawless : FileName.flaw? p.text = none) {contents : Bytes}
    (h : d.find p = .ok (.file contents)) : d.read p = .ok contents :=
  read_eq_ok_iff.2 ⟨flawless, _, h, rfl⟩

end DottedKeys.Disk
