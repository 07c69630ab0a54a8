import DottedKeys.Source.Render
import DottedKeys.Proofs.Group.Reach

/-!
# Names in generated source

Source consists of declarations, and a name in it is looked up from the outer type inwards.
`eq_print_of_renderGroup` says which declarations rendered text consists of, and `lookUp_render`
that every key still leads to the constant with that key for its value where members can hide each
other.
-/

namespace DottedKeys.Source

/-! ## Declarations -/

/-- A declaration in generated source. -/
inductive Declaration where
  | constant (name value : Text)
  | group (name : Text) (members : List Declaration)

namespace Declaration

def name : Declaration → Text
  | constant name _ => name
  | group name _ => name

/-- The member of a declaration that a name is bound to, which is the last of that name. -/
def member? (name : Text) : Declaration → Option Declaration
  | constant _ _ => none
  | group _ members => members.reverse.find? (·.name = name)

/-- What names stand for inside a declaration, each looked up in what the last one stands for. -/
def lookUp (d : Declaration) (names : List Text) : Option Declaration :=
  names.foldlM (fun d name => d.member? name) d

end Declaration

mutual

/-- The text of a declaration in a language, at a level of indentation. -/
def print (l : Layout) (level : Int) : Declaration → Text
  | .constant name value => indentation l level ++ l.constant name value
  | .group name members =>
    indentation l level ++ l.opening name ++ printAll l (level + 1) members ++
      if l.closing.isEmpty then [] else indentation l level ++ l.closing

/-- The text of declarations, one after the other. -/
def printAll (l : Layout) (level : Int) : List Declaration → Text
  | [] => []
  | d :: rest => print l level d ++ printAll l level rest

end

mutual

/-- The members of a group, in their order. -/
def members : Group → List Declaration
  | ⟨qualifier, name, fields, children⟩ =>
    let g : Group := ⟨qualifier, name, fields, children⟩
    (if g.isRoot then [] else [.constant rootConstant g.qualifier]) ++
      fields.map (fun field => .constant field (g.fullKey field)) ++ declareAll children

/-- The declarations of groups. -/
def declareAll : List Group → List Declaration
  | [] => []
  | g :: rest => .group g.name (members g) :: declareAll rest

end

/-- The outer type of a source file. -/
def outer (root : Group) (typeName : Text) : Declaration :=
  .group (Key.splitQualified typeName).2 (members root)

theorem declareAll_eq_map (groups : List Group) :
    declareAll groups = groups.map fun g => .group g.name (members g) := by
  induction groups with
  | nil => rfl
  | cons g rest ih => rw [declareAll, ih, List.map_cons]

theorem members_eq (g : Group) :
    members g = (if g.isRoot then [] else [.constant rootConstant g.qualifier]) ++
      g.fields.map (fun field => .constant field (g.fullKey field)) ++
      g.children.map fun child => .group child.name (members child) := by
  cases g
  rw [members, declareAll_eq_map]

theorem printAll_append (l : Layout) (level : Int) (ds more : List Declaration) :
    printAll l level (ds ++ more) = printAll l level ds ++ printAll l level more := by
  induction ds with
  | nil => rfl
  | cons d ds ih => rw [List.cons_append, printAll, printAll, ih, List.append_assoc]

/-! ## Rendered groups -/

section Render

variable {l : Layout} {level : Int}

/-- A group is rendered if no field of it is hidden and its children are rendered. -/
theorem of_renderGroup {g : Group} {text : Text} (rendered : renderGroup l level g = .ok text) :
    hiddenField? l g = none ∧ ∃ inner, renderAll l (level + 1) g.children = .ok inner ∧
      text = opening l level g ++ constants l level g ++ inner ++ closing l level g := by
  obtain ⟨qualifier, name, fields, children⟩ := g
  rw [renderGroup] at rendered
  cases hidden : hiddenField? l ⟨qualifier, name, fields, children⟩ with
  | some field => simp [check, hidden, bind, Except.bind] at rendered
  | none =>
    cases below : renderAll l (level + 1) children with
    | error fault => simp [check, hidden, below, bind, Except.bind] at rendered
    | ok inner =>
      refine ⟨rfl, inner, rfl, ?_⟩
      simpa [check, hidden, below, bind, Except.bind, pure, Except.pure] using rendered.symm

theorem of_renderAll_cons {g : Group} {rest : List Group} {text : Text}
    (rendered : renderAll l level (g :: rest) = .ok text) :
    ∃ first more, renderGroup l level g = .ok first ∧ renderAll l level rest = .ok more ∧
      text = first ++ more := by
  rw [renderAll] at rendered
  cases front : renderGroup l level g with
  | error fault => simp [front, bind, Except.bind] at rendered
  | ok first =>
    cases back : renderAll l level rest with
    | error fault => simp [front, back, bind, Except.bind] at rendered
    | ok more =>
      refine ⟨first, more, rfl, rfl, ?_⟩
      simpa [front, back, bind, Except.bind, pure, Except.pure] using rendered.symm

theorem of_mem_renderAll {groups : List Group} {text : Text}
    (rendered : renderAll l level groups = .ok text) :
    ∀ g ∈ groups, ∃ part, renderGroup l level g = .ok part := by
  induction groups generalizing text with
  | nil => simp
  | cons g rest ih =>
    obtain ⟨first, more, front, back, -⟩ := of_renderAll_cons rendered
    intro other member
    rcases List.mem_cons.1 member with rfl | member
    · exact ⟨first, front⟩
    · exact ih back other member

/-- No field is hidden anywhere in a tree that is rendered. -/
theorem hiddenField?_of_renderGroup {g node : Group} {path : List Text} {text : Text}
    (reached : g.Reaches path node) (rendered : renderGroup l level g = .ok text) :
    hiddenField? l node = none := by
  induction reached generalizing level text with
  | here g => exact (of_renderGroup rendered).1
  | @through g child node path member inside ih =>
    obtain ⟨-, inner, below, -⟩ := of_renderGroup rendered
    obtain ⟨part, shown⟩ := of_mem_renderAll below child member
    exact ih shown

/-! ### Text -/

theorem constants_eq_printAll (g : Group) :
    constants l level g =
      printAll l (level + 1) (g.fields.map fun field => .constant field (g.fullKey field)) := by
  unfold constants
  induction g.fields with
  | nil => rfl
  | cons field fields ih => rw [List.flatMap_cons, ih, List.map_cons, printAll, print]

/-- The members of the root are printed as they are. -/
theorem print_members_of_isRoot {g : Group} (root : g.isRoot = true) :
    opening l level g ++ constants l level g ++
        printAll l (level + 1) (declareAll g.children) ++ closing l level g =
      printAll l (level + 1) (members g) := by
  rw [members_eq, ← declareAll_eq_map, printAll_append, printAll_append, ← constants_eq_printAll]
  simp [opening, closing, root, printAll]

/-- The members of every other group are printed inside its declaration. -/
theorem print_group_of_not_isRoot {g : Group} (inner : g.isRoot = false) :
    opening l level g ++ constants l level g ++
        printAll l (level + 1) (declareAll g.children) ++ closing l level g =
      print l level (.group g.name (members g)) := by
  rw [print, members_eq, ← declareAll_eq_map, printAll_append, printAll_append,
    ← constants_eq_printAll]
  simp [opening, closing, inner, printAll, print]

/-- Groups that are each rendered as some text are rendered as these texts one after the other. -/
theorem eq_flatMap_of_renderAll {shown : Group → Text} {groups : List Group} {text : Text}
    (each : ∀ g ∈ groups, ∀ part, renderGroup l level g = .ok part → part = shown g)
    (rendered : renderAll l level groups = .ok text) : text = groups.flatMap shown := by
  induction groups generalizing text with
  | nil =>
    rw [renderAll] at rendered
    exact (Except.ok.inj rendered).symm
  | cons g rest ih =>
    obtain ⟨first, more, here, others, whole⟩ := of_renderAll_cons rendered
    have later := ih (fun other member => each other (List.mem_cons_of_mem g member)) others
    rw [whole, each g List.mem_cons_self first here, later, List.flatMap_cons]

theorem printAll_declareAll (groups : List Group) :
    printAll l level (declareAll groups) =
      groups.flatMap fun g => print l level (.group g.name (members g)) := by
  induction groups with
  | nil => rfl
  | cons g rest ih => rw [declareAll, printAll, ih, List.flatMap_cons]

/-- Groups that are each rendered as the text of their declarations are so one after the other. -/
theorem eq_printAll_of_each {groups : List Group} {text : Text}
    (each : ∀ g ∈ groups, ∀ part, renderGroup l level g = .ok part →
      part = print l level (.group g.name (members g)))
    (rendered : renderAll l level groups = .ok text) :
    text = printAll l level (declareAll groups) := by
  rw [printAll_declareAll]
  exact eq_flatMap_of_renderAll each rendered

/-- A group is rendered as the text of its declaration if none in it is written out as a root. -/
theorem eq_print_of_renderGroup {g : Group} {text : Text}
    (nested : ∀ node ∈ g.walk, node.isRoot = false) (rendered : renderGroup l level g = .ok text) :
    text = print l level (.group g.name (members g)) := by
  induction g using Group.byChildren generalizing level text with
  | step g ih =>
    rw [Group.walk_eq] at nested
    obtain ⟨-, inner, below, whole⟩ := of_renderGroup rendered
    have printed : inner = printAll l (level + 1) (declareAll g.children) := by
      refine eq_printAll_of_each (fun child member part shown => ?_) below
      refine ih child member (fun node among => nested node ?_) shown
      exact List.mem_cons_of_mem g (Group.mem_walkAll.2 ⟨child, member, among⟩)
    rw [whole, printed]
    exact print_group_of_not_isRoot (nested g List.mem_cons_self)

theorem of_render {root : Group} {typeName text : Text}
    (rendered : render l root typeName = .ok text) :
    ∃ body, renderGroup l 0 root = .ok body ∧
      text = l.file (Key.splitQualified typeName).1 (Key.splitQualified typeName).2 body := by
  unfold render at rendered
  cases shown : renderGroup l 0 root with
  | error fault => simp [shown, bind, Except.bind] at rendered
  | ok body =>
    refine ⟨body, rfl, ?_⟩
    simpa [shown, bind, Except.bind, pure, Except.pure] using rendered.symm

/-- The text of a root below which no group is written out as one is that of its members. -/
theorem eq_printAll_of_renderGroup {root : Group} {body : Text} (top : root.isRoot = true)
    (nested : ∀ node ∈ Group.walkAll root.children, node.isRoot = false)
    (rendered : renderGroup l level root = .ok body) :
    body = printAll l (level + 1) (members root) := by
  obtain ⟨-, inner, below, whole⟩ := of_renderGroup rendered
  have printed : inner = printAll l (level + 1) (declareAll root.children) := by
    refine eq_printAll_of_each (fun child member part shown => ?_) below
    refine eq_print_of_renderGroup (fun node among => nested node ?_) shown
    exact Group.mem_walkAll.2 ⟨child, member, among⟩
  rw [whole, printed, print_members_of_isRoot top]

end Render

/-! ## Lookup -/

section LookUp

/-- A name stands for a declaration if all of that name in its part of the members are that one, and
none follow. -/
theorem member?_name {before here after : List Declaration} {d : Declaration} (name : Text)
    (member : d ∈ here) (alike : ∀ e ∈ here, e.name = d.name → e = d)
    (later : ∀ e ∈ after, e.name ≠ d.name) :
    (Declaration.group name (before ++ here ++ after)).member? d.name = some d := by
  have unhidden : after.reverse.find? (·.name = d.name) = none := by
    apply List.find?_eq_none.2
    intro e among
    simpa using later e (List.mem_reverse.1 among)
  have found : here.reverse.find? (·.name = d.name) = some d := by
    cases search : here.reverse.find? (·.name = d.name) with
    | none =>
      have absent := List.find?_eq_none.1 search d (List.mem_reverse.2 member)
      simp at absent
    | some e =>
      have among : e ∈ here := List.mem_reverse.1 (List.mem_of_find?_eq_some search)
      have named : e.name = d.name := by simpa using List.find?_some search
      rw [alike e among named]
  rw [Declaration.member?, List.reverse_append, List.reverse_append, List.find?_append, unhidden,
    List.find?_append, found]
  rfl

variable {g node : Group}

/-- A child is what its name stands for: children come last, and no two have one name. -/
theorem member?_child {child : Group} (name : Text) (distinct : (g.children.map (·.name)).Nodup)
    (member : child ∈ g.children) :
    (Declaration.group name (members g)).member? child.name =
      some (.group child.name (members child)) := by
  rw [members_eq, ← List.append_nil (_ ++ _ ++ _)]
  refine member?_name (d := .group child.name (members child)) name
    (List.mem_map_of_mem member) (fun e among named => ?_) (by simp)
  obtain ⟨other, inside, rfl⟩ := List.mem_map.1 among
  rw [List.inj_on_of_nodup_map distinct inside member named]

/-- A field is what its name stands for, unless a child has that name. -/
theorem member?_field {field : Text} (name : Text) (member : field ∈ g.fields)
    (unhidden : field ∉ g.children.map (·.name)) :
    (Declaration.group name (members g)).member? field = some (.constant field (g.fullKey field)) := by
  rw [members_eq]
  refine member?_name (d := .constant field (g.fullKey field)) name (List.mem_map_of_mem member)
    (fun e among named => ?_) (fun e among named => ?_)
  · obtain ⟨other, inside, rfl⟩ := List.mem_map.1 among
    have same : other = field := named
    rw [same]
  · obtain ⟨child, inside, rfl⟩ := List.mem_map.1 among
    exact unhidden (List.mem_map.2 ⟨child, inside, named⟩)

theorem lookUp_cons (d : Declaration) (name : Text) (names : List Text) :
    d.lookUp (name :: names) = (d.member? name).bind (·.lookUp names) := rfl

theorem lookUp_append (d : Declaration) (names more : List Text) :
    d.lookUp (names ++ more) = (d.lookUp names).bind (·.lookUp more) :=
  List.foldlM_append

/-- The names on the way to a group of a tree of keys stand for its declaration. -/
theorem lookUp_reaches {keys done path : List Text} (shaped : Group.Shaped keys done g)
    (reached : g.Reaches path node) (name : Text) :
    ∃ last, (Declaration.group name (members g)).lookUp path = some (.group last (members node)) := by
  induction reached generalizing done name with
  | here g => exact ⟨name, rfl⟩
  | @through g child node path member inside ih =>
    rw [lookUp_cons, member?_child name shaped.nodup member]
    exact ih (shaped.child child member) child.name

/-- Where members can hide each other, no child of a rendered group has the name of a field. -/
theorem not_mem_names_of_hiddenField? {l : Layout} (shadows : l.shadows = true) {field : Text}
    (shown : hiddenField? l g = none) (member : field ∈ g.fields) :
    field ∉ g.children.map (·.name) := by
  rw [hiddenField?, if_pos shadows] at shown
  have clear := List.find?_eq_none.1 shown field member
  rw [takenNames, List.contains_iff_mem, List.mem_append] at clear
  exact fun among => clear (.inr among)

end LookUp

/-! ## Keys without empty names -/

section Keys

variable {keys : List Text} (solid : ∀ key ∈ keys, [] ∉ key.splitOn Key.dot)
include solid

/-- Only the root is written out as a root. -/
theorem not_isRoot_of_reaches {name : Text} {path : List Text} {node : Group}
    (reached : (Group.ofKeys keys).Reaches (name :: path) node) : node.isRoot = false := by
  have own := (reached.handed Group.Qualified.child (Group.qualified_ofKeys keys)).own
  rw [List.nil_append] at own
  rcases (Group.shaped_ofKeys keys).reaches_iff.1 ⟨node, reached⟩ with bare | ⟨key, given, rest, whole⟩
  · contradiction
  · have names := Key.splitOn_eq_path_field (solid key given)
    have some_name : name ≠ [] := by
      rintro rfl
      apply solid key given
      rw [names, ← whole]
      simp
    have qualified : Key.join (name :: path) ≠ [] := Key.join_ne_nil some_name
    rw [← own] at qualified
    simpa [Group.isRoot] using qualified

theorem not_isRoot_below : ∀ node ∈ Group.walkAll (Group.ofKeys keys).children,
    node.isRoot = false := by
  intro node met
  obtain ⟨child, member, inside⟩ := Group.mem_walkAll.1 met
  obtain ⟨path, reached⟩ := Group.mem_walk_iff.1 inside
  exact not_isRoot_of_reaches solid (.through member reached)

/-- The source of keys is the text of the members of its outer class. -/
theorem eq_file_of_render {l : Layout} {typeName text : Text}
    (rendered : render l (Group.ofKeys keys) typeName = .ok text) :
    text = l.file (Key.splitQualified typeName).1 (Key.splitQualified typeName).2
      (printAll l 1 (members (Group.ofKeys keys))) := by
  have top : (Group.ofKeys keys).isRoot = true := by
    rw [Group.isRoot, (Group.qualified_ofKeys keys).own]
    rfl
  obtain ⟨body, shown, whole⟩ := of_render rendered
  rw [whole, eq_printAll_of_renderGroup top (not_isRoot_below solid) shown]
  rfl

/-- The names of a key stand for a constant with the key for its value, if no field is hidden. -/
theorem lookUp_splitOn {l : Layout} (shadows : l.shadows = true) {text : Text}
    (rendered : renderGroup l 0 (Group.ofKeys keys) = .ok text) (name : Text) {key : Text}
    (given : key ∈ keys) :
    (Declaration.group name (members (Group.ofKeys keys))).lookUp (key.splitOn Key.dot) =
      some (.constant (Key.field key) key) := by
  -- The group that holds the key: it has the field, no child hides that, and its path is the key's.
  have shaped := Group.shaped_ofKeys keys
  obtain ⟨node, reached⟩ : ∃ node, (Group.ofKeys keys).Reaches (Key.path key) node :=
    shaped.reaches_iff.2 (.inr ⟨key, given, List.prefix_refl _⟩)
  have held : Key.field key ∈ node.fields := by
    cases reached.handed Group.Shaped.child shaped with
    | intro fields names inside =>
      rw [fields]
      exact List.mem_map_of_mem (List.mem_filter.2 ⟨given, by simp⟩)
  have value : node.fullKey (Key.field key) = key := by
    have own := reached.handed Group.Qualified.child (Group.qualified_ofKeys keys)
    rw [own.fullKey, List.nil_append, Key.qualify_path_field_of_solid (solid key given)]
  have shown := hiddenField?_of_renderGroup reached rendered
  have unhidden := not_mem_names_of_hiddenField? shadows shown held
  obtain ⟨last, arrived⟩ := lookUp_reaches shaped reached name
  rw [Key.splitOn_eq_path_field (solid key given), lookUp_append, arrived]
  show (Declaration.group last (members node)).lookUp [Key.field key] = _
  rw [lookUp_cons, member?_field last held unhidden, value]
  rfl

end Keys

/-- **Every key can be looked up.** A module for keys without empty names is the text of the members
of its outer class, and from there the names of each key lead through classes to a constant with
the key for its value. -/
theorem lookUp_render {keys : List Text} (solid : ∀ key ∈ keys, [] ∉ key.splitOn Key.dot)
    {typeName text : Text} (rendered : render python (Group.ofKeys keys) typeName = .ok text) :
    text = python.file (Key.splitQualified typeName).1 (Key.splitQualified typeName).2
        (printAll python 1 (members (Group.ofKeys keys))) ∧
      ∀ key ∈ keys, (outer (Group.ofKeys keys) typeName).lookUp (key.splitOn Key.dot) =
        some (.constant (Key.field key) key) := by
  obtain ⟨body, shown, -⟩ := of_render rendered
  exact ⟨eq_file_of_render solid rendered, fun key given => lookUp_splitOn solid rfl shown _ given⟩

/-- Keys that use the name of the constant for a path, once as a field and once as a group. -/
def rootKeys : List Text :=
  ["_ROOT", "a.b", "a._ROOT.b", "a.b"].map Text.ofString

theorem lookUp_render_rootKeys :
    (∀ key ∈ rootKeys, [] ∉ key.splitOn Key.dot) ∧
      ∃ text, render python (Group.ofKeys rootKeys) "config.Keys" = .ok text ∧
        text = python.file (Key.splitQualified "config.Keys").1 (Key.splitQualified "config.Keys").2
          (printAll python 1 (members (Group.ofKeys rootKeys))) ∧
        ∀ key ∈ rootKeys, (outer (Group.ofKeys rootKeys) "config.Keys").lookUp
          (key.splitOn Key.dot) = some (.constant (Key.field key) key) := by
  have solid : ∀ key ∈ rootKeys, [] ∉ key.splitOn Key.dot := by decide +kernel
  have accepted : (render python (Group.ofKeys rootKeys) "config.Keys").toOption.isSome = true := by
    decide +kernel
  refine ⟨solid, ?_⟩
  cases rendered : render python (Group.ofKeys rootKeys) "config.Keys" with
  | error fault =>
    rw [rendered] at accepted
    contradiction
  | ok text => exact ⟨text, rfl, lookUp_render solid rendered⟩

end DottedKeys.Source
