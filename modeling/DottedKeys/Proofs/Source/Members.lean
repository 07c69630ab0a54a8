import DottedKeys.Proofs.Source.Collision

/-!
# Names bound in one group

The members of a group share one name space: the constant that names its path, its fields, and the
groups inside it. `body_iff` says which bodies a source file declares, and `names_of_body` that in
each of them only that constant can share its name, with a group that has the name of the constant.
-/

namespace DottedKeys.Source

/-- The members that stand in a declaration, or in a group declared inside it, with the names on the
way there. -/
inductive Body : Declaration → (path : List Text) → List Declaration → Prop where
  | own (name : Text) (members : List Declaration) : Body (.group name members) [] members
  | nested {name : Text} {members body : List Declaration} {inner : Declaration} {path : List Text}
      (member : inner ∈ members) (inside : Body inner path body) :
      Body (.group name members) (inner.name :: path) body

theorem exists_group_of_mem_members {g : Group} {name : Text} {body : List Declaration}
    (member : Declaration.group name body ∈ members g) :
    ∃ child ∈ g.children, name = child.name ∧ body = members child := by
  rw [members_eq, List.mem_append, List.mem_append] at member
  rcases member with (constant | field) | group
  · split at constant <;> simp at constant
  · simp at field
  · obtain ⟨child, inside, same⟩ := List.mem_map.1 group
    obtain ⟨rfl, rfl⟩ := Declaration.group.inj same
    exact ⟨child, inside, rfl, rfl⟩

/-- The bodies in the declaration of a group are the members of the groups of its tree. -/
theorem body_iff {g : Group} {name : Text} {path : List Text} {body : List Declaration} :
    Body (.group name (members g)) path body ↔ ∃ node, g.Reaches path node ∧ body = members node := by
  constructor
  · intro h
    generalize whole : Declaration.group name (members g) = d at h
    induction h generalizing g name with
    | own name ms =>
      obtain ⟨rfl, rfl⟩ := Declaration.group.inj whole
      exact ⟨g, .here g, rfl⟩
    | @nested name ms body inner path member inside ih =>
      obtain ⟨rfl, rfl⟩ := Declaration.group.inj whole
      cases inner with
      | constant field value => cases inside
      | group inner_name inner_members =>
        obtain ⟨child, among, rfl, rfl⟩ := exists_group_of_mem_members member
        obtain ⟨node, reached, rfl⟩ := ih rfl
        exact ⟨node, .through among reached, rfl⟩
  · rintro ⟨node, reached, rfl⟩
    induction reached generalizing name with
    | here g => exact .own name (members g)
    | @through g child node path member inside ih =>
      have declared : Declaration.group child.name (members child) ∈ members g := by
        rw [members_eq]
        exact List.mem_append_right _ (List.mem_map_of_mem member)
      exact .nested declared ih

/-- The members of a group but for the constant that names its path. -/
def ownMembers (g : Group) : List Declaration :=
  g.fields.map (fun field => .constant field (g.fullKey field)) ++
    g.children.map fun child => .group child.name (members child)

theorem names_ownMembers (g : Group) :
    (ownMembers g).map Declaration.name = g.fields ++ g.children.map (·.name) := by
  rw [ownMembers, List.map_append, List.map_map, List.map_map]
  congr 1
  exact List.map_id' g.fields

theorem members_eq_ownMembers (g : Group) :
    members g = (if g.isRoot then [] else [.constant rootConstant g.qualifier]) ++ ownMembers g := by
  rw [members_eq, List.append_assoc, ownMembers]

section Keys

variable {keys : List Text} (solid : ∀ key ∈ keys, [] ∉ key.splitOn Key.dot)
include solid

/-- Different keys of one group have different fields. -/
theorem nodup_fields {path : List Text} {node : Group} (distinct : keys.Nodup)
    (reached : (Group.ofKeys keys).Reaches path node) : node.fields.Nodup := by
  cases reached.handed Group.Shaped.child (Group.shaped_ofKeys keys) with
  | intro fields names inside =>
    rw [fields, List.nil_append]
    apply List.Nodup.map_on _ (distinct.filter _)
    intro key first other second same
    obtain ⟨given, ends⟩ := List.mem_filter.1 first
    obtain ⟨given', ends'⟩ := List.mem_filter.1 second
    rw [decide_eq_true_eq] at ends ends'
    rw [← Key.qualify_path_field_of_solid (solid key given), ends, same, ← ends',
      Key.qualify_path_field_of_solid (solid other given')]

/-- A group of the tree that names lead to: its members are the constant for its path, if it has
one, and what it holds. -/
theorem members_of_reaches {path : List Text} {node : Group}
    (reached : (Group.ofKeys keys).Reaches path node) :
    members node =
      (if path = [] then [] else [.constant rootConstant (Key.join path)]) ++ ownMembers node := by
  have own := (reached.handed Group.Qualified.child (Group.qualified_ofKeys keys)).own
  rw [members_eq_ownMembers, own, List.nil_append]
  simp only [isRoot_iff_of_reaches solid reached]

section Shown

variable {l : Layout} (shadows : l.shadows = true) {path : List Text} {node : Group}
  (reached : (Group.ofKeys keys).Reaches path node) (shown : hiddenField? l node = none)
include shadows reached shown

/-- The fields of a group and the groups inside it have different names, unless it is refused. -/
theorem nodup_names_ownMembers (distinct : keys.Nodup) :
    ((ownMembers node).map Declaration.name).Nodup := by
  have shaped := reached.handed Group.Shaped.child (Group.shaped_ofKeys keys)
  rw [names_ownMembers, List.nodup_append]
  refine ⟨nodup_fields solid distinct reached, shaped.nodup, ?_⟩
  intro field held name among
  rintro rfl
  exact not_mem_names_of_hiddenField? shadows shown held among

/-- Nothing but a group inside has the name of the constant, unless the group is refused. -/
theorem rootConstant_mem_names_iff (below : path ≠ []) :
    rootConstant ∈ (ownMembers node).map Declaration.name ↔
      ∃ key ∈ keys, path ++ [rootConstant] <+: Key.path key := by
  have shaped := reached.handed Group.Shaped.child (Group.shaped_ofKeys keys)
  rw [List.nil_append] at shaped
  have inner : ¬ node.isRoot = true := fun root => below ((isRoot_iff_of_reaches solid reached).1 root)
  have no_field : rootConstant ∉ node.fields := by
    rw [hiddenField?, if_pos shadows] at shown
    intro held
    have clear := List.find?_eq_none.1 shown rootConstant held
    simp [takenNames, inner] at clear
  rw [names_ownMembers, List.mem_append, shaped.mem_names]
  exact or_iff_right no_field

/-- All members of a group have different names exactly if none inside has that of the constant. -/
theorem nodup_names_members_iff (distinct : keys.Nodup) :
    ((members node).map Declaration.name).Nodup ↔
      path = [] ∨ ∀ key ∈ keys, ¬ path ++ [rootConstant] <+: Key.path key := by
  have apart := nodup_names_ownMembers solid shadows reached shown distinct
  rw [members_of_reaches solid reached]
  by_cases top : path = []
  · simp [top, apart]
  · have taken := rootConstant_mem_names_iff solid shadows reached shown top
    rw [if_neg top, or_iff_right top, List.singleton_append, List.map_cons, List.nodup_cons]
    show rootConstant ∉ _ ∧ _ ↔ _
    rw [taken, and_iff_left apart]
    push Not
    rfl

end Shown

end Keys

/-- **Names bound in one class.** In every class of a module for different keys without empty names,
the constants of keys and the classes have different names, and each is what its name stands for.
All names in a class differ, that of the constant for its path included, exactly if it is the outer
class or no key goes on from it through a class with the name of that constant. -/
theorem names_of_body {keys : List Text} (distinct : keys.Nodup)
    (solid : ∀ key ∈ keys, [] ∉ key.splitOn Key.dot) {typeName text : Text}
    (rendered : render python (Group.ofKeys keys) typeName = .ok text) :
    text = python.file (Key.splitQualified typeName).1 (Key.splitQualified typeName).2
        (printAll python 1 (members (Group.ofKeys keys))) ∧
      ∀ path body, Body (outer (Group.ofKeys keys) typeName) path body →
        ∃ rest, body =
            (if path = [] then [] else [.constant rootConstant (Key.join path)]) ++ rest ∧
          (rest.map Declaration.name).Nodup ∧
          (∀ d ∈ rest, ∀ name, (Declaration.group name body).member? d.name = some d) ∧
          ((body.map Declaration.name).Nodup ↔
            path = [] ∨ ∀ key ∈ keys, ¬ path ++ [rootConstant] <+: Key.path key) := by
  refine ⟨eq_file_of_render solid rendered, fun path body stands => ?_⟩
  obtain ⟨node, reached, rfl⟩ := body_iff.1 stands
  obtain ⟨inner, shown, -⟩ := of_render rendered
  have clear := hiddenField?_of_renderGroup reached shown
  have apart := nodup_names_ownMembers solid rfl reached clear distinct
  refine ⟨ownMembers node, members_of_reaches solid reached, apart, fun d member name => ?_,
    nodup_names_members_iff solid rfl reached clear distinct⟩
  rw [members_of_reaches solid reached, ← List.append_nil (_ ++ _)]
  refine member?_name name member (fun e among named => ?_) (by simp)
  exact List.inj_on_of_nodup_map apart among member named

/-- Different keys that use the name of the constant for a group inside another group. -/
def nestedRootKeys : List Text :=
  ["_ROOT", "a.b", "a._ROOT.c"].map Text.ofString

theorem names_of_body_nestedRootKeys :
    nestedRootKeys.Nodup ∧ (∀ key ∈ nestedRootKeys, [] ∉ key.splitOn Key.dot) ∧
      ∃ text, render python (Group.ofKeys nestedRootKeys) "config.Keys" = .ok text ∧
        ∀ path body, Body (outer (Group.ofKeys nestedRootKeys) "config.Keys") path body →
          ((body.map Declaration.name).Nodup ↔
            path = [] ∨ ∀ key ∈ nestedRootKeys, ¬ path ++ [rootConstant] <+: Key.path key) := by
  have distinct : nestedRootKeys.Nodup := by decide +kernel
  have solid : ∀ key ∈ nestedRootKeys, [] ∉ key.splitOn Key.dot := by decide +kernel
  have accepted :
      (render python (Group.ofKeys nestedRootKeys) "config.Keys").toOption.isSome = true := by
    decide +kernel
  refine ⟨distinct, solid, ?_⟩
  cases rendered : render python (Group.ofKeys nestedRootKeys) "config.Keys" with
  | error fault =>
    rw [rendered] at accepted
    contradiction
  | ok text =>
    refine ⟨text, rfl, fun path body stands => ?_⟩
    obtain ⟨rest, -, -, -, differ⟩ := (names_of_body distinct solid rendered).2 path body stands
    exact differ

/-- A key that goes through a class with the name of the constant. -/
def hidingKeys : List Text :=
  ["a._ROOT.b"].map Text.ofString

/-- The key is accepted, and two members of one class have the name of the constant. -/
theorem exists_body_not_nodup :
    hidingKeys.Nodup ∧ (∀ key ∈ hidingKeys, [] ∉ key.splitOn Key.dot) ∧
      (∃ text, render python (Group.ofKeys hidingKeys) "Keys" = .ok text) ∧
      ∃ path body, Body (outer (Group.ofKeys hidingKeys) "Keys") path body ∧
        ¬ (body.map Declaration.name).Nodup := by
  have distinct : hidingKeys.Nodup := by decide +kernel
  have solid : ∀ key ∈ hidingKeys, [] ∉ key.splitOn Key.dot := by decide +kernel
  have through : ∃ key ∈ hidingKeys, [Text.ofString "a"] ++ [rootConstant] <+: Key.path key := by
    decide +kernel
  have accepted : (Group.ofKeys hidingKeys).walk.findSome? (hiddenKey? python) = none := by
    decide +kernel
  obtain ⟨text, rendered⟩ := (endsAt_render (Group.ofKeys hidingKeys) "Keys").ok_iff.2 accepted
  obtain ⟨inner, shown, -⟩ := of_render rendered
  obtain ⟨key, given, passes⟩ := through
  obtain ⟨node, reached⟩ := (Group.shaped_ofKeys hidingKeys).reaches_iff.2
    (.inr ⟨key, given, (List.prefix_append _ _).trans passes⟩)
  refine ⟨distinct, solid, ⟨text, rendered⟩, _, _, body_iff.2 ⟨node, reached, rfl⟩, fun differ => ?_⟩
  have clear := hiddenField?_of_renderGroup reached shown
  rcases (nodup_names_members_iff solid rfl reached clear distinct).1 differ with top | elsewhere
  · exact List.cons_ne_nil _ _ top
  · exact elsewhere key given passes

end DottedKeys.Source
