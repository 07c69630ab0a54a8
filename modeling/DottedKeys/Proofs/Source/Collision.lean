import DottedKeys.Proofs.Source.Scope

/-!
# Colliding keys

Where members can hide each other, a tree is refused for the first key of its walk that another
member would hide. `endsAt_renderGroup` says so of every tree. In a tree of keys the paths of these
tell what is hidden, group by group (`contains_takenNames_iff_hidden`), so the keys decide what is
refused (`exists_render_eq_error_iff`). Keys without empty names are hidden exactly if they collide
as flat keys, and `render_eq_error_iff` says which one is reported.
-/

namespace DottedKeys.Source

/-! ## The first hidden key -/

/-- The whole key of the first field of a group that another member would hide. -/
def hiddenKey? (l : Layout) (g : Group) : Option Text :=
  (hiddenField? l g).map g.fullKey

/-- Rendering fails for a hidden key, if there is one, and only then. -/
def EndsAt (rendered : Except Fault Text) : (hidden : Option Text) → Prop
  | some key => rendered = .error (.collision key)
  | none => ∃ text, rendered = .ok text

theorem EndsAt.error_iff {rendered : Except Fault Text} {hidden : Option Text}
    (h : EndsAt rendered hidden) {fault : Fault} :
    rendered = .error fault ↔ ∃ key, fault = .collision key ∧ hidden = some key := by
  cases hidden with
  | none =>
    obtain ⟨text, shown⟩ : ∃ text, rendered = .ok text := h
    simp [shown]
  | some key =>
    have failed : rendered = .error (.collision key) := h
    simp [failed, eq_comm]

theorem EndsAt.ok_iff {rendered : Except Fault Text} {hidden : Option Text}
    (h : EndsAt rendered hidden) : (∃ text, rendered = .ok text) ↔ hidden = none := by
  cases hidden with
  | none => exact iff_of_true h rfl
  | some key =>
    have failed : rendered = .error (.collision key) := h
    simp [failed]

theorem EndsAt.bind {rendered : Except Fault Text} {hidden : Option Text} (h : EndsAt rendered hidden)
    {next : Text → Except Fault Text} {later : Option Text} (more : ∀ text, EndsAt (next text) later) :
    EndsAt (rendered >>= next) (hidden.or later) := by
  cases hidden with
  | none =>
    obtain ⟨text, rfl⟩ : ∃ text, rendered = .ok text := h
    exact more text
  | some key =>
    obtain rfl : rendered = .error (.collision key) := h
    exact rfl

section Render

variable {l : Layout} {level : Int}

theorem endsAt_renderAll {groups : List Group}
    (each : ∀ g ∈ groups, EndsAt (renderGroup l level g) (g.walk.findSome? (hiddenKey? l))) :
    EndsAt (renderAll l level groups) ((Group.walkAll groups).findSome? (hiddenKey? l)) := by
  induction groups with
  | nil => exact ⟨[], rfl⟩
  | cons g rest ih =>
    rw [renderAll, Group.walkAll, List.findSome?_append]
    refine (each g List.mem_cons_self).bind fun first => ?_
    rw [← Option.or_none (o := (Group.walkAll rest).findSome? _)]
    refine (ih fun other member => each other (List.mem_cons_of_mem g member)).bind fun more => ?_
    exact ⟨first ++ more, rfl⟩

theorem endsAt_check (g : Group) {next : Except Fault Text} {later : Option Text}
    (more : EndsAt next later) : EndsAt (check l g >>= fun _ => next) ((hiddenKey? l g).or later) := by
  rw [check, hiddenKey?]
  cases hiddenField? l g with
  | none => exact more
  | some field => exact rfl

/-- A tree is refused for the first hidden key of its walk. -/
theorem endsAt_renderGroup (g : Group) :
    EndsAt (renderGroup l level g) (g.walk.findSome? (hiddenKey? l)) := by
  induction g using Group.byChildren generalizing level with
  | step g ih =>
    have below : EndsAt (renderAll l (level + 1) g.children)
        ((Group.walkAll g.children).findSome? (hiddenKey? l)) :=
      endsAt_renderAll fun child member => ih child member
    have found : g.walk.findSome? (hiddenKey? l) =
        (hiddenKey? l g).or ((Group.walkAll g.children).findSome? (hiddenKey? l)) := by
      rw [Group.walk_eq, List.findSome?_cons]
      cases hiddenKey? l g <;> rfl
    rw [found]
    obtain ⟨qualifier, name, fields, children⟩ := g
    rw [renderGroup]
    apply endsAt_check
    rw [← Option.or_none (o := (Group.walkAll children).findSome? _)]
    exact below.bind fun inner => ⟨_, rfl⟩

theorem endsAt_render (root : Group) (typeName : Text) :
    EndsAt (render l root typeName) (root.walk.findSome? (hiddenKey? l)) := by
  rw [render, ← Option.or_none (o := root.walk.findSome? _)]
  exact (endsAt_renderGroup root).bind fun body => ⟨_, rfl⟩

/-- Where members cannot hide each other every tree is rendered. -/
theorem exists_render_eq_ok (apart : l.shadows = false) (root : Group) (typeName : Text) :
    ∃ text, render l root typeName = .ok text := by
  apply (endsAt_render root typeName).ok_iff.2
  apply List.findSome?_eq_none_iff.2
  intro node met
  rw [hiddenKey?, hiddenField?, apart]
  rfl

end Render

/-! ## Collisions of flat keys -/

/-- A key collides with keys if one of them goes on from it behind a dot. A key with a dot also
collides if its last name is that of the constant which names the path of its group. -/
def Collides (keys : List Text) (key : Text) : Prop :=
  (∃ other ∈ keys, key ++ [Key.dot] <+: other) ∨
    (Key.dot ∈ key ∧ (key.splitOn Key.dot).getLast? = some rootConstant)

instance (keys : List Text) (key : Text) : Decidable (Collides keys key) :=
  inferInstanceAs (Decidable (_ ∨ _))

/-- The field of a key is hidden if another key goes on through a group of its name next to it, or if
it is called what the constant is that names the path of its group. -/
def Hidden (keys : List Text) (key : Text) : Prop :=
  (∃ other ∈ keys, Key.path key ++ [Key.field key] <+: Key.path other) ∨
    (Key.join (Key.path key) ≠ [] ∧ Key.field key = rootConstant)

/-- A group of the tree of some keys has taken the name of a field exactly if the field is hidden
there. -/
theorem contains_takenNames_iff_hidden {keys : List Text} {key : Text} {node : Group}
    (reached : (Group.ofKeys keys).Reaches (Key.path key) node) :
    (takenNames node).contains (Key.field key) = true ↔ Hidden keys key := by
  have shaped := reached.handed Group.Shaped.child (Group.shaped_ofKeys keys)
  have own := (reached.handed Group.Qualified.child (Group.qualified_ofKeys keys)).own
  rw [List.nil_append] at shaped own
  rw [Hidden, takenNames, List.contains_iff_mem, List.mem_append, shaped.mem_names, or_comm]
  refine or_congr_right ?_
  rw [Group.isRoot, own]
  by_cases bare : Key.join (Key.path key) = []
  · simp [bare]
  · simp [bare]

/-- A tree of keys is refused exactly if the field of one of them is hidden. -/
theorem exists_render_eq_error_iff {l : Layout} (shadows : l.shadows = true) (keys : List Text)
    (typeName : Text) :
    (∃ key, render l (Group.ofKeys keys) typeName = .error (.collision key)) ↔
      ∃ key ∈ keys, Hidden keys key := by
  have ends := endsAt_render (l := l) (Group.ofKeys keys) typeName
  have shaped := Group.shaped_ofKeys keys
  simp only [ends.error_iff, Fault.collision.injEq, exists_eq_left']
  rw [← Option.isSome_iff_exists, List.findSome?_isSome_iff]
  simp only [hiddenKey?, hiddenField?, if_pos shadows, Option.isSome_map, List.find?_isSome]
  constructor
  · rintro ⟨node, met, field, held, taken⟩
    obtain ⟨path, reached⟩ := Group.mem_walk_iff.1 met
    obtain ⟨key, given, rfl, rfl⟩ := (reached.handed Group.Shaped.child shaped).mem_fields.1 held
    exact ⟨key, given, (contains_takenNames_iff_hidden reached).1 taken⟩
  · rintro ⟨key, given, hidden⟩
    obtain ⟨node, reached⟩ := shaped.reaches_iff.2 (.inr ⟨key, given, List.prefix_refl _⟩)
    refine ⟨node, Group.mem_walk_iff.2 ⟨_, reached⟩, Key.field key, ?_,
      (contains_takenNames_iff_hidden reached).2 hidden⟩
    exact (reached.handed Group.Shaped.child shaped).mem_fields.2 ⟨key, given, rfl, rfl⟩

section Keys

variable {keys : List Text} (solid : ∀ key ∈ keys, [] ∉ key.splitOn Key.dot)
include solid

/-- A key collides exactly if its field is hidden. -/
theorem collides_iff_hidden {key : Text} (given : key ∈ keys) :
    Collides keys key ↔ Hidden keys key := by
  have last : (key.splitOn Key.dot).getLast? = some (Key.field key) := by
    rw [Key.splitOn_eq_path_field (solid key given), List.getLast?_concat]
  have dotted : Key.dot ∈ key ↔ Key.join (Key.path key) ≠ [] := by
    rw [Key.join_path_ne_nil_iff (solid key given), ne_eq, Key.path_eq_nil_iff (solid key given),
      not_not]
  have longer : (∃ other ∈ keys, key ++ [Key.dot] <+: other) ↔
      ∃ other ∈ keys, Key.path key ++ [Key.field key] <+: Key.path other := by
    refine exists_congr fun other => and_congr_right fun member => ?_
    exact Key.dot_prefix_iff_path (solid key given) (solid other member)
  rw [Collides, longer, dotted, last, Option.some_inj, Hidden]

/-- A group of the tree is written out as the root exactly if no names lead to it. -/
theorem isRoot_iff_of_reaches {path : List Text} {node : Group}
    (reached : (Group.ofKeys keys).Reaches path node) : node.isRoot = true ↔ path = [] := by
  cases path with
  | nil =>
    have own := (reached.handed Group.Qualified.child (Group.qualified_ofKeys keys)).own
    simp [Group.isRoot, own, Key.join, List.intercalate]
  | cons name path => simp [not_isRoot_of_reaches solid reached]

/-- The fields of a group are those of keys with the path to it, and each has its key for its whole
key. -/
theorem exists_key_of_mem_fields {path : List Text} {node : Group} {field : Text}
    (reached : (Group.ofKeys keys).Reaches path node) (held : field ∈ node.fields) :
    ∃ key ∈ keys, Key.path key = path ∧ Key.field key = field ∧ node.fullKey field = key := by
  have own := reached.handed Group.Qualified.child (Group.qualified_ofKeys keys)
  have shaped := reached.handed Group.Shaped.child (Group.shaped_ofKeys keys)
  obtain ⟨key, given, rfl, rfl⟩ := shaped.mem_fields.1 held
  refine ⟨key, given, rfl, rfl, ?_⟩
  rw [own.fullKey, List.nil_append, Key.qualify_path_field_of_solid (solid key given)]

/-- A field of a group has a name that is taken exactly if its key collides. -/
theorem contains_takenNames_iff {path : List Text} {node : Group} {field : Text}
    (reached : (Group.ofKeys keys).Reaches path node) (held : field ∈ node.fields) :
    (takenNames node).contains field = true ↔ Collides keys (node.fullKey field) := by
  obtain ⟨key, given, rfl, rfl, whole⟩ := exists_key_of_mem_fields solid reached held
  rw [whole, collides_iff_hidden solid given, contains_takenNames_iff_hidden reached]

/-- What a walk finds hidden is the first of the keys of the tree that collides. -/
theorem findSome?_hiddenKey? {l : Layout} (shadows : l.shadows = true) :
    (Group.ofKeys keys).walk.findSome? (hiddenKey? l) =
      (Group.ofKeys keys).keys.find? fun key => decide (Collides keys key) := by
  rw [Group.keys, List.find?_flatMap, ← List.head?_filterMap, ← List.head?_filterMap]
  congr 1
  refine List.filterMap_congr fun node met => ?_
  obtain ⟨path, reached⟩ := Group.mem_walk_iff.1 met
  have alike : ∀ field ∈ node.fields, (takenNames node).contains field =
      decide (Collides keys (node.fullKey field)) := by
    intro field held
    rw [Bool.eq_iff_iff, contains_takenNames_iff solid reached held, decide_eq_true_eq]
  rw [hiddenKey?, hiddenField?, if_pos shadows, List.find?_map, ← List.head?_filter,
    ← List.head?_filter, List.filter_congr alike]
  rfl

/-- The tree holds the keys themselves. -/
theorem keys_ofKeys_perm_of_solid : (Group.ofKeys keys).keys.Perm keys := by
  have held := Group.keys_ofKeys keys
  have same : keys.map Key.normal = keys := by
    refine (List.map_congr_left fun key given => ?_).trans (List.map_id' keys)
    rw [← Key.qualify_path_field, Key.qualify_path_field_of_solid (solid key given)]
  rwa [same] at held

end Keys

/-- **Refused keys.** Keys without empty names are refused exactly if one of them collides with the
others, and the one that is reported is the first that does in the order of the tree. Where members
cannot hide each other no keys are refused. -/
theorem render_eq_error_iff {keys : List Text} (solid : ∀ key ∈ keys, [] ∉ key.splitOn Key.dot)
    (typeName : Text) :
    ((∃ key, render python (Group.ofKeys keys) typeName = .error (.collision key)) ↔
        ∃ key ∈ keys, Collides keys key) ∧
      (∀ fault, render python (Group.ofKeys keys) typeName = .error fault ↔
        ∃ key, fault = .collision key ∧
          (Group.ofKeys keys).keys.find? (fun key => decide (Collides keys key)) = some key) ∧
      ∃ text, render java (Group.ofKeys keys) typeName = .ok text := by
  have ends := endsAt_render (l := python) (Group.ofKeys keys) typeName
  rw [findSome?_hiddenKey? solid rfl] at ends
  refine ⟨?_, fun fault => ends.error_iff, exists_render_eq_ok rfl _ _⟩
  simp only [ends.error_iff, Fault.collision.injEq, exists_eq_left']
  rw [← Option.isSome_iff_exists, List.find?_isSome]
  simp only [(keys_ofKeys_perm_of_solid solid).mem_iff, decide_eq_true_eq]

/-- Keys of which two collide, one with the constant of its group and one with a longer key. -/
def clashingKeys : List Text :=
  ["c", "a.b.c", "a._ROOT", "a.b", "c"].map Text.ofString

theorem render_clashingKeys :
    (∀ key ∈ clashingKeys, [] ∉ key.splitOn Key.dot) ∧
      render python (Group.ofKeys clashingKeys) "config.Keys" = .error (.collision "a._ROOT") ∧
      ∃ text, render java (Group.ofKeys clashingKeys) "config.Keys" = .ok text := by
  have solid : ∀ key ∈ clashingKeys, [] ∉ key.splitOn Key.dot := by decide +kernel
  have first : (Group.ofKeys clashingKeys).keys.find? (fun key => decide (Collides clashingKeys key)) =
      some "a._ROOT" := by
    decide +kernel
  obtain ⟨-, refused, rendered⟩ := render_eq_error_iff solid "config.Keys"
  exact ⟨solid, (refused _).2 ⟨_, rfl, first⟩, rendered⟩

end DottedKeys.Source
