import DottedKeys.Group.Insert

/-!
# What an insertion leaves as it is

A group is known by its place. Following a name enters the last child of that name, or makes one
behind all others (`exists_enters`); either way no child moves, so a place stays that of the same group.
`kept_graft` says what becomes of a group that was there, `made_graft` what a new one is, and
`keys_graft_trail` where the key of a new field comes in. `frame_insert` puts them together, for every
tree, whatever its names and qualifiers are.
-/

namespace DottedKeys.Group

/-! ## Changes of one group -/

/-- A change of a group that concerns nothing but its fields. -/
structure KeepsPlace (change : Group → Group) : Prop where
  qualifier : ∀ g, (change g).qualifier = g.qualifier
  name : ∀ g, (change g).name = g.name
  children : ∀ g, (change g).children = g.children

/-- A change that holds more fields behind those of a group, and concerns nothing else. -/
structure Appends (change : Group → Group) (more : List Text) : Prop extends KeepsPlace change where
  fields : ∀ g, (change g).fields = g.fields ++ more

theorem appends_addField (field : Text) : Appends (addField field) [field] :=
  ⟨⟨fun _ => rfl, fun _ => rfl, fun _ => rfl⟩, fun _ => rfl⟩

theorem keepsPlace_addField (field : Text) : KeepsPlace (addField field) :=
  (appends_addField field).toKeepsPlace

theorem appends_id : Appends id [] :=
  ⟨⟨fun _ => rfl, fun _ => rfl, fun _ => rfl⟩, fun g => (List.append_nil g.fields).symm⟩

/-! ## One step of a path -/

/-- What is the last of a name is found. -/
theorem lastNamed?_append {name : Text} {child : Group} {after : List Group} (named : child.name = name)
    (last : ∀ other ∈ after, other.name ≠ name) (before : List Group) :
    lastNamed? name (before ++ child :: after) = some (before, child, after) := by
  induction before with
  | nil => rw [List.nil_append, lastNamed?, lastNamed?_eq_none_iff.2 last, if_pos named]
  | cons g before ih => rw [List.cons_append, lastNamed?, ih]

/-- How a name leads from a group to a child: to the last of that name, or to a new one behind all
others, which has the names followed so far for its path. -/
inductive Enters (path : List Text) (name : Text) (g : Group) :
    (before : List Group) → (child : Group) → (after : List Group) → Prop where
  | found {before after : List Group} {child : Group} (parted : g.children = before ++ child :: after)
      (named : child.name = name) (last : ∀ other ∈ after, other.name ≠ name) :
      Enters path name g before child after
  | made (absent : ∀ other ∈ g.children, other.name ≠ name) :
      Enters path name g g.children (fresh path name) []

section Graft

variable {change : Group → Group} {done todo : List Text} {name : Text} {g : Group}

theorem graft_found {before after : List Group} {child : Group}
    (found : lastNamed? name g.children = some (before, child, after)) :
    graft change done (name :: todo) g =
      { g with children := before ++ graft change (done ++ [name]) todo child :: after } := by
  rw [graft, found]

theorem graft_missing (missing : lastNamed? name g.children = none) :
    graft change done (name :: todo) g =
      g.addChild (graft change (done ++ [name]) todo (fresh (done ++ [name]) name)) := by
  rw [graft, missing]

theorem name_graft (keeps : KeepsPlace change) : (graft change done todo g).name = g.name := by
  cases todo with
  | nil => exact keeps.name g
  | cons name todo =>
    cases search : lastNamed? name g.children with
    | some parts => rw [graft_found search]
    | none => rw [graft_missing search, addChild]

/-- Where names lead depends on the groups below only. -/
theorem trail_of_children_eq {other : Group} (same : g.children = other.children) :
    trail todo g = trail todo other := by
  cases todo with
  | nil => rfl
  | cons name todo => rw [trail, trail, same]

/-- A name is followed in one of two ways, which does not depend on what is done at the end. -/
theorem exists_enters (done : List Text) (name : Text) (g : Group) :
    ∃ before child after, Enters (done ++ [name]) name g before child after ∧
      (∀ change todo, graft change done (name :: todo) g =
        { g with children := before ++ graft change (done ++ [name]) todo child :: after }) ∧
      ∀ todo, trail (name :: todo) g = before.length :: trail todo child := by
  cases search : lastNamed? name g.children with
  | some parts =>
    obtain ⟨before, child, after⟩ := parts
    obtain ⟨parted, named, last⟩ := eq_of_lastNamed? search
    refine ⟨before, child, after, .found parted named last, fun _ _ => graft_found search, ?_⟩
    intro todo
    rw [trail, search]
  | none =>
    refine ⟨g.children, fresh (done ++ [name]) name, [], .made (lastNamed?_eq_none_iff.1 search),
      fun _ _ => graft_missing search, ?_⟩
    intro todo
    have blank : trail todo (fresh (done ++ [name]) name) = trail todo empty :=
      trail_of_children_eq rfl
    rw [trail, search, blank]

end Graft

section Enters

variable {path : List Text} {name : Text} {g child : Group} {before after : List Group}

theorem Enters.named (h : Enters path name g before child after) : child.name = name := by
  cases h with
  | found parted named last => exact named
  | made absent => rfl

theorem Enters.last (h : Enters path name g before child after) :
    ∀ other ∈ after, other.name ≠ name := by
  cases h with
  | found parted named last => exact last
  | made absent => simp

/-- The groups around the one that is entered are children. -/
theorem Enters.mem (h : Enters path name g before child after) {other : Group}
    (member : other ∈ before ∨ other ∈ after) : other ∈ g.children := by
  cases h with
  | found parted named last =>
    rw [parted, List.mem_append, List.mem_cons]
    exact member.imp_right .inr
  | made absent => simpa using member

/-- What has the name and stands where it leads is found there again. -/
theorem Enters.lastNamed? (h : Enters path name g before child after) {grown : Group}
    (named : grown.name = child.name) :
    lastNamed? name (before ++ grown :: after) = some (before, grown, after) :=
  lastNamed?_append (named.trans h.named) h.last before

/-- Other children stay where they are. -/
theorem Enters.getElem?_of_ne (h : Enters path name g before child after) {i : Nat}
    (elsewhere : i ≠ before.length) (grown : Group) :
    (before ++ grown :: after)[i]? = g.children[i]? := by
  cases h with
  | found parted named last => grind
  | made absent => grind

end Enters

/-! ## Places -/

theorem get?_cons (g : Group) (i : Nat) (rest : Place) :
    g.get? (i :: rest) = g.children[i]?.bind (·.get? rest) := rfl

/-- Going along one place and then another is going along both. -/
theorem get?_append (g : Group) (place rest : Place) :
    g.get? (place ++ rest) = (g.get? place).bind (·.get? rest) := by
  induction place generalizing g with
  | nil => rfl
  | cons i place ih =>
    rw [List.cons_append, get?_cons, get?_cons]
    cases g.children[i]? with
    | none => rfl
    | some child => exact ih child

/-- Every group on the way to a group is there. -/
theorem isSome_get?_of_prefix {g : Group} {place longer : Place} (lead : place <+: longer)
    (present : (g.get? longer).isSome = true) : (g.get? place).isSome = true := by
  obtain ⟨rest, rfl⟩ := lead
  rw [get?_append] at present
  exact Option.isSome_of_isSome_bind present

/-- The names on the way to a place. -/
def namesTo : Group → Place → List Text
  | _, [] => []
  | g, i :: rest =>
    match g.children[i]? with
    | some child => child.name :: namesTo child rest
    | none => []

theorem namesTo_cons {g child : Group} {i : Nat} (there : g.children[i]? = some child) (rest : Place) :
    g.namesTo (i :: rest) = child.name :: child.namesTo rest := by
  rw [namesTo, there]

/-- What grows out of a group when fields are held here or below: its texts and the groups inside
it stay, and more may stand behind them. -/
structure Grown (node grown : Group) (more : List Text) : Prop where
  qualifier : grown.qualifier = node.qualifier
  name : grown.name = node.name
  fields : grown.fields = node.fields ++ more
  children : node.children.map (·.name) <+: grown.children.map (·.name)

section Frame

variable {change : Group → Group} {more done todo : List Text} {g node made : Group} {place : Place}

/-- A group that was there is still there, and has grown. -/
theorem kept_graft (appends : Appends change more) (present : g.get? place = some node) :
    ∃ grown, (graft change done todo g).get? place = some grown ∧
      Grown node grown (if place = trail todo g then more else []) := by
  induction todo generalizing done g place with
  | nil =>
    cases place with
    | nil =>
      obtain rfl := Option.some.inj present
      refine ⟨change g, rfl, appends.qualifier g, appends.name g, appends.fields g, ?_⟩
      simp only [appends.children, List.prefix_refl]
    | cons i rest =>
      refine ⟨node, ?_, rfl, rfl, (List.append_nil _).symm, List.prefix_refl _⟩
      rw [graft, get?_cons, appends.children, ← get?_cons]
      exact present
  | cons name todo ih =>
    obtain ⟨before, child, after, enters, grafted, led⟩ := exists_enters done name g
    rw [grafted, led]
    have named : (graft change (done ++ [name]) todo child).name = child.name :=
      name_graft appends.toKeepsPlace
    cases place with
    | nil =>
      obtain rfl := Option.some.inj present
      refine ⟨_, rfl, rfl, rfl, (List.append_nil _).symm, ?_⟩
      cases enters with
      | found parted _ last => simp [parted, named]
      | made absent => simp
    | cons i rest =>
      by_cases here : i = before.length
      · subst here
        have entered : child.get? rest = some node := by
          cases enters with
          | found parted _ last => simpa [get?_cons, parted] using present
          | made absent => simp [get?_cons] at present
        obtain ⟨grown, there, growth⟩ := ih entered
        refine ⟨grown, by simpa [get?_cons] using there, ?_⟩
        simpa using growth
      · refine ⟨node, ?_, rfl, rfl, by simp [here], List.prefix_refl _⟩
        rw [get?_cons, enters.getElem?_of_ne here, ← get?_cons]
        exact present

/-- A group that was not there stands on the way along the names, and has the names followed so far
for its path. -/
theorem made_graft (appends : Appends change more) (absent : g.get? place = none)
    (present : (graft change done todo g).get? place = some made) :
    place <+: trail todo g ∧ ∃ name, (todo.take place.length).getLast? = some name ∧
      Grown (fresh (done ++ todo.take place.length) name) made
        (if place = trail todo g then more else []) := by
  induction todo generalizing done g place with
  | nil =>
    cases place with
    | nil => contradiction
    | cons i rest =>
      rw [graft, get?_cons, appends.children, ← get?_cons, absent] at present
      contradiction
  | cons name todo ih =>
    obtain ⟨before, child, after, enters, grafted, led⟩ := exists_enters done name g
    rw [grafted] at present
    rw [led]
    cases place with
    | nil => contradiction
    | cons i rest =>
      by_cases here : i = before.length
      · subst here
        have inside : (graft change (done ++ [name]) todo child).get? rest = some made := by
          simpa [get?_cons] using present
        cases below : child.get? rest with
        | none =>
          obtain ⟨lead, last, ends, growth⟩ := ih below inside
          refine ⟨by simpa using lead, last, ?_, ?_⟩
          · rw [List.length_cons, List.take_succ_cons, List.getLast?_cons, ends]
            rfl
          · simpa using growth
        | some node =>
          cases enters with
          | found parted named last => simp [get?_cons, parted, below] at absent
          | made unnamed =>
            cases rest with
            | nil =>
              obtain ⟨grown, there, growth⟩ := kept_graft appends below
              obtain rfl := Option.some.inj (there.symm.trans inside)
              obtain rfl := Option.some.inj below
              exact ⟨by simp, name, by simp, by simpa using growth⟩
            | cons j rest => simp [fresh, get?_cons] at below
      · rw [get?_cons, enters.getElem?_of_ne here, ← get?_cons, absent] at present
        contradiction

/-- There is a group where names lead. -/
theorem isSome_get?_trail : ((graft change done todo g).get? (trail todo g)).isSome = true := by
  induction todo generalizing done g with
  | nil => rfl
  | cons name todo ih =>
    obtain ⟨before, child, after, -, grafted, led⟩ := exists_enters done name g
    rw [grafted, led]
    simpa [get?_cons] using ih

/-- Names lead to a place that they lead to. -/
theorem namesTo_trail (keeps : KeepsPlace change) :
    (graft change done todo g).namesTo (trail todo g) = todo := by
  induction todo generalizing done g with
  | nil => rfl
  | cons name todo ih =>
    obtain ⟨before, child, after, enters, grafted, led⟩ := exists_enters done name g
    have there : (before ++ graft change (done ++ [name]) todo child :: after)[before.length]? =
        some (graft change (done ++ [name]) todo child) := by
      simp
    rw [grafted, led, namesTo_cons there, name_graft keeps, enters.named, ih]

/-- The new groups are those that were missing on the way along the names. -/
theorem isSome_get?_graft_iff (appends : Appends change more) :
    ((graft change done todo g).get? place).isSome = true ↔
      (g.get? place).isSome = true ∨ place <+: trail todo g := by
  constructor
  · intro present
    cases before : g.get? place with
    | some node => exact .inl rfl
    | none =>
      obtain ⟨made, there⟩ := Option.isSome_iff_exists.1 present
      exact .inr (made_graft appends before there).1
  · rintro (present | lead)
    · obtain ⟨node, there⟩ := Option.isSome_iff_exists.1 present
      obtain ⟨grown, after, -⟩ := kept_graft appends there
      rw [after]
      rfl
    · exact isSome_get?_of_prefix lead isSome_get?_trail

/-! ## Keys -/

theorem flatMap_walkAll (groups : List Group) :
    (walkAll groups).flatMap (fun node => node.fields.map node.fullKey) = groups.flatMap keys := by
  induction groups with
  | nil => simp [walkAll]
  | cons g rest ih => rw [walkAll, List.flatMap_append, ih, List.flatMap_cons, keys]

/-- The keys of a tree are those of the root and then those of the trees below. -/
theorem keys_eq (g : Group) : g.keys = g.fields.map g.fullKey ++ g.children.flatMap keys := by
  rw [keys, walk_eq, List.flatMap_cons, flatMap_walkAll]

theorem keys_fresh (names : List Text) (name : Text) : (fresh names name).keys = [] := by
  rw [keys_eq]
  rfl

/-- A new field adds its key in the group that holds it, and the other keys keep their order. -/
theorem keys_graft_trail (field : Text) (done todo : List Text) (g : Group) :
    ∃ home before after, (graft (addField field) done todo g).get? (trail todo g) = some home ∧
      g.keys = before ++ after ∧
      (graft (addField field) done todo g).keys = before ++ home.fullKey field :: after := by
  -- What stands before and after the new key is that of the child, inside that of the group.
  induction todo generalizing done g with
  | nil =>
    refine ⟨addField field g, g.fields.map g.fullKey, g.children.flatMap keys, rfl, keys_eq g, ?_⟩
    have grown : (g.fields ++ [field]).map g.fullKey =
        g.fields.map g.fullKey ++ [g.fullKey field] := by
      rw [List.map_append, List.map_singleton]
    rw [graft, keys_eq]
    show (g.fields ++ [field]).map g.fullKey ++ g.children.flatMap keys = _
    rw [grown, List.append_assoc]
    rfl
  | cons name todo ih =>
    obtain ⟨left, child, right, enters, grafted, led⟩ := exists_enters done name g
    obtain ⟨home, before, after, there, old, new⟩ := ih (done ++ [name]) child
    refine ⟨home, g.fields.map g.fullKey ++ (left.flatMap keys ++ before),
      after ++ right.flatMap keys, ?_, ?_, ?_⟩
    · rw [grafted, led]
      simpa [get?_cons] using there
    · cases enters with
      | found parted named last =>
        rw [keys_eq, parted, List.flatMap_append, List.flatMap_cons, old]
        simp only [List.append_assoc]
      | made absent =>
        rw [keys_fresh] at old
        obtain ⟨rfl, rfl⟩ := List.nil_eq_append_iff.1 old
        rw [keys_eq, List.flatMap_nil, List.append_nil, List.append_nil, List.append_nil]
    · rw [grafted, keys_eq]
      show g.fields.map g.fullKey ++ (left ++ _ :: right).flatMap keys = _
      rw [List.flatMap_append, List.flatMap_cons, new]
      simp only [List.append_assoc, List.cons_append]

/-! ## Following a path again -/

/-- What was found or made along names is found along them again. -/
theorem trail_graft (keeps : KeepsPlace change) :
    trail todo (graft change done todo g) = trail todo g := by
  induction todo generalizing done g with
  | nil => rfl
  | cons name todo ih =>
    obtain ⟨before, child, after, enters, grafted, led⟩ := exists_enters done name g
    rw [grafted, led, trail, enters.lastNamed? (name_graft keeps)]
    exact congrArg _ ih

/-- Two changes along the same names are one. -/
theorem graft_graft {again : Group → Group} (keeps : KeepsPlace change) :
    graft again done todo (graft change done todo g) = graft (again ∘ change) done todo g := by
  induction todo generalizing done g with
  | nil => rfl
  | cons name todo ih =>
    obtain ⟨before, child, after, enters, grafted, led⟩ := exists_enters done name g
    rw [grafted, graft_found (enters.lastNamed? (name_graft keeps)), ih, grafted]

end Frame

theorem get?_modifyAt (change : Group → Group) (place : Place) (g : Group) :
    (modifyAt change place g).get? place = (g.get? place).map change := by
  induction place generalizing g with
  | nil => rfl
  | cons i place ih =>
    rw [modifyAt, get?_cons, get?_cons, List.getElem?_modify_eq]
    cases g.children[i]? with
    | none => rfl
    | some child => exact ih child

theorem modifyAt_modifyAt (again change : Group → Group) (place : Place) (g : Group) :
    modifyAt again place (modifyAt change place g) = modifyAt (again ∘ change) place g := by
  induction place generalizing g with
  | nil => rfl
  | cons i place ih =>
    rw [modifyAt, modifyAt, modifyAt, List.modify_modify_eq]
    congr 2
    funext child
    exact ih child

/-- Making groups that are there changes nothing. -/
theorem resolve_resolve (path : Text) (g : Group) : resolve path (resolve path g) = resolve path g :=
  graft_graft appends_id.toKeepsPlace

theorem resolveAt_resolveAt (start : Place) (path : Text) (root : Group) :
    resolveAt start path (resolveAt start path root) = resolveAt start path root := by
  have once : resolve path ∘ resolve path = resolve path := funext (resolve_resolve path)
  rw [resolveAt, resolveAt, modifyAt_modifyAt, once]

theorem placeOf_resolveAt (start : Place) (path : Text) (root : Group) :
    placeOf start path (resolveAt start path root) = placeOf start path root := by
  rw [placeOf, placeOf, resolveAt, get?_modifyAt]
  cases root.get? start with
  | none => rfl
  | some g => exact congrArg _ (trail_graft appends_id.toKeepsPlace)

/-- There is a group at the place of the groups that were made. -/
theorem isSome_get?_placeOf {start : Place} {root : Group} (present : (root.get? start).isSome = true)
    (path : Text) : ((resolveAt start path root).get? (placeOf start path root)).isSome = true := by
  obtain ⟨g, there⟩ := Option.isSome_iff_exists.1 present
  rw [placeOf, resolveAt, get?_append, get?_modifyAt, there]
  exact isSome_get?_trail

/-! ## One more key -/

/-- **What an insertion changes.** In every tree, a key is held by one group more field of which is
the last name of the key: every group that was there is still at its place, with its texts, its fields
and the groups inside it, behind which there may be more; new groups stand only on the way to the one
that holds the key, and have no other fields; and of the whole keys that one is new, the others keeping
their order. A path that is followed twice from any group leads to the same group again and changes
nothing the second time. -/
theorem frame_insert :
    (∀ (key : Text) (root : Group), ∃ home, (root.insert key).get? (root.homeOf key) = some home ∧
      (∀ place node, root.get? place = some node →
        ∃ grown, (root.insert key).get? place = some grown ∧
          Grown node grown (if place = root.homeOf key then [Key.field key] else [])) ∧
      (∀ place, ((root.insert key).get? place).isSome = true ↔
        (root.get? place).isSome = true ∨ place <+: root.homeOf key) ∧
      (∀ place made, root.get? place = none → (root.insert key).get? place = some made →
        made.fields = if place = root.homeOf key then [Key.field key] else []) ∧
      ∃ before after, root.keys = before ++ after ∧
        (root.insert key).keys = before ++ home.fullKey (Key.field key) :: after) ∧
    ∀ (start : Place) (path : Text) (root : Group),
      resolveAt start path (resolveAt start path root) = resolveAt start path root ∧
        placeOf start path (resolveAt start path root) = placeOf start path root ∧
        ((root.get? start).isSome = true →
          ((resolveAt start path root).get? (placeOf start path root)).isSome = true) := by
  constructor
  · intro key root
    have appends := appends_addField (Key.field key)
    obtain ⟨home, before, after, there, old, new⟩ :=
      keys_graft_trail (Key.field key) [] (Key.path key) root
    refine ⟨home, there, fun place node => kept_graft appends, fun place =>
      isSome_get?_graft_iff appends, fun place made absent present => ?_, before, after, old, new⟩
    obtain ⟨-, name, -, growth⟩ := made_graft appends absent present
    exact growth.fields
  · intro start path root
    exact ⟨resolveAt_resolveAt start path root, placeOf_resolveAt start path root,
      fun present => isSome_get?_placeOf present path⟩

/-- A tree made by hand: two groups of one name, of which the first is qualified by something else. -/
def twins : Group :=
  ⟨[], [], ["x"], [⟨"z", "a", ["p"], []⟩, ⟨"a", "a", ["q"], [⟨"a.c", "c", [], []⟩]⟩]⟩

/-- A key is held below the last of two groups of one name, and nothing happens to the first. -/
theorem frame_insert_twins :
    twins.homeOf "a.b.k" = [1, 1] ∧ twins.get? [0] = some ⟨"z", "a", ["p"], []⟩ ∧
      (∃ grown, (twins.insert "a.b.k").get? [0] = some grown ∧
        Grown ⟨"z", "a", ["p"], []⟩ grown []) ∧
      twins.get? [1, 1] = none ∧
      (∃ made, (twins.insert "a.b.k").get? [1, 1] = some made ∧ made.fields = [("k" : Text)]) ∧
      (twins.get? [1]).isSome = true ∧
      ((resolveAt [1] "b.k" twins).get? (placeOf [1] "b.k" twins)).isSome = true := by
  have home : twins.homeOf "a.b.k" = [1, 1] := by decide +kernel
  have field : Key.field "a.b.k" = "k" := by decide +kernel
  have there : twins.get? [0] = some ⟨"z", "a", ["p"], []⟩ := rfl
  have absent : twins.get? [1, 1] = none := rfl
  have present : ((twins.insert "a.b.k").get? [1, 1]).isSome = true := by decide +kernel
  obtain ⟨made, found⟩ := Option.isSome_iff_exists.1 present
  obtain ⟨inserted, again⟩ := frame_insert
  obtain ⟨-, -, kept, -, new, -⟩ := inserted "a.b.k" twins
  have growth := kept [0] _ there
  have held := new [1, 1] made absent found
  rw [home] at growth held
  rw [field] at held
  exact ⟨home, there, growth, absent, ⟨made, found, held⟩, rfl, (again [1] "b.k" twins).2.2 rfl⟩

end DottedKeys.Group
