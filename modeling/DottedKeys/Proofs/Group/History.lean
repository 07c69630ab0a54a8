import DottedKeys.Proofs.Group.Frame
import DottedKeys.Proofs.Key.Path
import Mathlib.Data.List.Induction

/-!
# Trees grown by calls

A tree may also grow below a group inside it, and the groups made there are qualified from that group
on. `Call.kept` and `Call.made` say what one call does to the groups of a tree, and
`qualifier_ofCalls` follows every group of a tree back to the call that made it: its qualifier is
that of the path from the root exactly if that call started at the root.
-/

namespace DottedKeys.Group

/-! ## Names on the way to a place -/

section Names

variable {g h node : Group} {place : Place}

theorem namesTo_append (there : g.get? place = some node) (rest : Place) :
    g.namesTo (place ++ rest) = g.namesTo place ++ node.namesTo rest := by
  induction place generalizing g with
  | nil =>
    obtain rfl := Option.some.inj there
    rfl
  | cons i place ih =>
    obtain ⟨child, found, inside⟩ := Option.bind_eq_some_iff.1 there
    rw [List.cons_append, namesTo_cons found, namesTo_cons found, ih inside, List.cons_append]

/-- There is a name for each step. -/
theorem length_namesTo (there : g.get? place = some node) :
    (g.namesTo place).length = place.length := by
  induction place generalizing g with
  | nil => rfl
  | cons i place ih =>
    obtain ⟨child, found, inside⟩ := Option.bind_eq_some_iff.1 there
    rw [namesTo_cons found, List.length_cons, ih inside, List.length_cons]

/-- Groups that stay where they are with their names keep the names on the way to them. -/
theorem namesTo_eq_of_kept
    (kept : ∀ place node, g.get? place = some node →
      ∃ grown, h.get? place = some grown ∧ grown.name = node.name)
    (there : g.get? place = some node) : h.namesTo place = g.namesTo place := by
  induction place using List.reverseRecOn generalizing node with
  | nil => rfl
  | append_singleton place i ih =>
    obtain ⟨grown, found, named⟩ := kept _ _ there
    rw [get?_append] at there found
    obtain ⟨parent, lead, inside⟩ := Option.bind_eq_some_iff.1 there
    obtain ⟨parent', lead', inside'⟩ := Option.bind_eq_some_iff.1 found
    obtain ⟨child, step, rfl⟩ : ∃ child, parent.children[i]? = some child ∧ child = node := by
      simpa [get?_cons, get?, Option.bind_eq_some_iff] using inside
    obtain ⟨child', step', rfl⟩ : ∃ child, parent'.children[i]? = some child ∧ child = grown := by
      simpa [get?_cons, get?, Option.bind_eq_some_iff] using inside'
    rw [namesTo_append lead, namesTo_append lead', namesTo_cons step, namesTo_cons step', named,
      ih lead]
    rfl

/-- The names on the way to a new group are those that were followed. -/
theorem namesTo_of_prefix_trail {change : Group → Group} {done todo : List Text}
    (keeps : KeepsPlace change) (lead : place <+: trail todo g)
    (there : (graft change done todo g).get? place = some node) :
    (graft change done todo g).namesTo place = todo.take place.length := by
  obtain ⟨rest, whole⟩ := lead
  have names : (graft change done todo g).namesTo place ++ node.namesTo rest = todo := by
    rw [← namesTo_append there, whole, namesTo_trail keeps]
  calc (graft change done todo g).namesTo place
      = ((graft change done todo g).namesTo place ++ node.namesTo rest).take place.length := by
        rw [← length_namesTo there, List.take_left]
    _ = todo.take place.length := by rw [names]

end Names

/-! ## Changes inside a tree -/

section ModifyAt

variable {change : Group → Group} {g node made : Group} {start place : Place}

/-- Groups keep their texts where they are if they do so below the group that is changed. -/
theorem kept_modifyAt
    (kept : ∀ g place node, g.get? place = some node → ∃ grown,
      (change g).get? place = some grown ∧ grown.qualifier = node.qualifier ∧ grown.name = node.name)
    (there : g.get? place = some node) :
    ∃ grown, (modifyAt change start g).get? place = some grown ∧
      grown.qualifier = node.qualifier ∧ grown.name = node.name := by
  induction start generalizing g place with
  | nil => exact kept g place node there
  | cons i start ih =>
    cases place with
    | nil =>
      obtain rfl := Option.some.inj there
      exact ⟨_, rfl, rfl, rfl⟩
    | cons j place =>
      obtain ⟨child, found, inside⟩ := Option.bind_eq_some_iff.1 there
      rw [modifyAt, get?_cons, List.getElem?_modify, found]
      by_cases same : i = j
      · obtain ⟨grown, after, texts⟩ := ih inside
        exact ⟨grown, by simpa [same] using after, texts⟩
      · exact ⟨node, by simpa [same] using inside, rfl, rfl⟩

/-- New groups stand below the group that is changed. -/
theorem made_modifyAt (absent : g.get? place = none)
    (there : (modifyAt change start g).get? place = some made) :
    ∃ inner rest, g.get? start = some inner ∧ place = start ++ rest ∧ inner.get? rest = none ∧
      (change inner).get? rest = some made := by
  induction start generalizing g place with
  | nil => exact ⟨g, place, rfl, rfl, absent, there⟩
  | cons i start ih =>
    cases place with
    | nil => contradiction
    | cons j place =>
      rw [get?_cons] at absent
      rw [modifyAt, get?_cons, List.getElem?_modify] at there
      cases found : g.children[j]? with
      | none => simp [found] at there
      | some child =>
        rw [found] at absent there
        by_cases same : i = j
        · subst same
          obtain ⟨inner, rest, lead, whole, missing, new⟩ :=
            ih absent (by simpa using there)
          refine ⟨inner, rest, ?_, by rw [whole, List.cons_append], missing, new⟩
          rw [get?_cons, found]
          exact lead
        · simp only [same, if_false, Option.map_eq_map, Option.map_some] at there
          exact absurd (absent.symm.trans there) (Option.some_ne_none made).symm

end ModifyAt

/-! ## Calls -/

/-- A call that makes a tree grow: a key is inserted at the root, or the groups of a path are made
below the group at a place. -/
inductive Call where
  | insert (key : Text)
  | resolve (start : Place) (path : Text)

namespace Call

/-- The place from which a call follows names. -/
def start : Call → Place
  | insert _ => []
  | resolve start _ => start

/-- The names that a call follows. -/
def names : Call → List Text
  | insert key => Key.path key
  | resolve _ path => Key.segments path

/-- What a call does to the group that its names lead to. -/
def change : Call → Group → Group
  | insert key => addField (Key.field key)
  | resolve _ _ => id

/-- What a call makes of a tree. -/
def run : Call → Group → Group
  | insert key, root => root.insert key
  | resolve start path, root => resolveAt start path root

theorem run_eq (call : Call) (root : Group) :
    call.run root = modifyAt (graft call.change [] call.names) call.start root := by
  cases call with
  | insert key => rfl
  | resolve start path => rfl

theorem appends_change (call : Call) : ∃ more, Appends call.change more := by
  cases call with
  | insert key => exact ⟨_, appends_addField _⟩
  | resolve start path => exact ⟨_, appends_id⟩

section Step

variable {call : Call} {root node : Group} {place : Place}

/-- Every group stays where it is, with its texts. -/
theorem kept (call : Call) (there : root.get? place = some node) :
    ∃ grown, (call.run root).get? place = some grown ∧
      grown.qualifier = node.qualifier ∧ grown.name = node.name := by
  obtain ⟨more, appends⟩ := call.appends_change
  rw [run_eq]
  refine kept_modifyAt (fun g place node present => ?_) there
  obtain ⟨grown, after, growth⟩ := kept_graft appends present
  exact ⟨grown, after, growth.qualifier, growth.name⟩

theorem namesTo_run (call : Call) (there : root.get? place = some node) :
    (call.run root).namesTo place = root.namesTo place := by
  refine namesTo_eq_of_kept (fun place node present => ?_) there
  obtain ⟨grown, after, -, named⟩ := call.kept present
  exact ⟨grown, after, named⟩

/-- A new group stands below the start of the call, and is qualified from there on. -/
theorem made (absent : root.get? place = none) (there : (call.run root).get? place = some node) :
    ∃ own, own ≠ [] ∧ call.start <+: place ∧ (root.get? call.start).isSome = true ∧
      (call.run root).namesTo place = root.namesTo call.start ++ own ∧
      node.qualifier = Key.join own := by
  obtain ⟨more, appends⟩ := call.appends_change
  rw [run_eq] at there
  obtain ⟨inner, rest, begins, rfl, missing, new⟩ := made_modifyAt absent there
  obtain ⟨lead, name, last, growth⟩ := made_graft appends missing new
  have entered : (call.run root).get? call.start = some (graft call.change [] call.names inner) := by
    rw [run_eq, get?_modifyAt, begins]
    rfl
  refine ⟨call.names.take rest.length, ?_, List.prefix_append _ _, by rw [begins]; rfl, ?_,
    growth.qualifier⟩
  · intro bare
    rw [bare] at last
    contradiction
  · rw [namesTo_append entered, call.namesTo_run begins,
      namesTo_of_prefix_trail appends.toKeepsPlace lead new]

end Step

end Call

/-- The tree of some calls, made one after the other. -/
def ofCalls (calls : List Call) : Group :=
  calls.foldl (fun root call => call.run root) empty

theorem ofCalls_concat (calls : List Call) (call : Call) :
    ofCalls (calls ++ [call]) = call.run (ofCalls calls) := by
  simp [ofCalls, List.foldl_append]

/-- A call that made the group at a place: the group was not there before and was there afterwards, and
stands below the group at which the call started. -/
structure MadeBy (earlier : List Call) (call : Call) (place : Place) : Prop where
  absent : (ofCalls earlier).get? place = none
  present : ((ofCalls (earlier ++ [call])).get? place).isSome = true
  begins : ((ofCalls earlier).get? call.start).isSome = true
  below : call.start <+: place

/-- Every group but the root was made by a call, and is qualified from the start of that call on. -/
theorem exists_madeBy {calls : List Call} {place : Place} {node : Group} (inner : place ≠ [])
    (there : (ofCalls calls).get? place = some node) :
    ∃ earlier call later own, calls = earlier ++ call :: later ∧ MadeBy earlier call place ∧
      own ≠ [] ∧ (ofCalls calls).namesTo place = (ofCalls earlier).namesTo call.start ++ own ∧
      node.qualifier = Key.join own := by
  induction calls using List.reverseRecOn generalizing node with
  | nil =>
    obtain ⟨i, rest, rfl⟩ := List.exists_cons_of_ne_nil inner
    contradiction
  | append_singleton calls last ih =>
    rw [ofCalls_concat] at there ⊢
    cases before : (ofCalls calls).get? place with
    | some old =>
      obtain ⟨earlier, call, later, own, rfl, maker, some_own, names, qualified⟩ := ih before
      obtain ⟨grown, after, same, -⟩ := last.kept before
      obtain rfl := Option.some.inj (after.symm.trans there)
      exact ⟨earlier, call, later ++ [last], own, by simp, maker, some_own,
        (last.namesTo_run before).trans names, same.trans qualified⟩
    | none =>
      obtain ⟨own, some_own, lead, begins, names, qualified⟩ := Call.made before there
      have present : ((ofCalls (calls ++ [last])).get? place).isSome = true := by
        rw [ofCalls_concat, there]
        rfl
      exact ⟨calls, last, [], own, rfl, ⟨before, present, begins, lead⟩, some_own, names, qualified⟩

/-- The root is never qualified. -/
theorem isRoot_ofCalls (calls : List Call) : (ofCalls calls).isRoot = true := by
  induction calls using List.reverseRecOn with
  | nil => rfl
  | append_singleton calls last ih =>
    have top : (ofCalls calls).get? [] = some (ofCalls calls) := rfl
    obtain ⟨grown, there, same, -⟩ := last.kept top
    obtain rfl := Option.some.inj there
    rw [ofCalls_concat, isRoot, same]
    exact ih

/-- **Qualifiers and where calls start.** In a tree that calls have grown from the empty root, the keys
of the root are its fields. Every other group was made by one of the calls. Its qualifier is that of the
names on its path behind the group at which that call started, and so are the whole keys of its fields;
it is that of the whole path exactly if the call started at the root. -/
theorem qualifier_ofCalls (calls : List Call) :
    (∀ field, (ofCalls calls).fullKey field = field) ∧
      ∀ place node, place ≠ [] → (ofCalls calls).get? place = some node →
        ∃ earlier call later own, calls = earlier ++ call :: later ∧ MadeBy earlier call place ∧
          own ≠ [] ∧ (ofCalls calls).namesTo place = (ofCalls earlier).namesTo call.start ++ own ∧
          node.qualifier = Key.join own ∧ (∀ field, node.fullKey field = Key.qualify own field) ∧
          (node.qualifier = Key.join ((ofCalls calls).namesTo place) ↔ call.start = []) := by
  constructor
  · intro field
    rw [fullKey, if_pos (isRoot_ofCalls calls)]
  intro place node inner there
  obtain ⟨earlier, call, later, own, whole, maker, some_own, names, qualified⟩ :=
    exists_madeBy inner there
  refine ⟨earlier, call, later, own, whole, maker, some_own, names, qualified, fun field => ?_, ?_⟩
  · rw [fullKey, isRoot, Key.qualify, qualified]
  · obtain ⟨first, begins⟩ := Option.isSome_iff_exists.1 maker.begins
    rw [names, qualified, eq_comm, Key.join_append_eq_iff some_own, ← List.length_eq_zero_iff,
      length_namesTo begins, List.length_eq_zero_iff]

/-- A key is inserted, and then a path is made below the group that holds it. -/
def innerCalls : List Call :=
  [.insert "a.x", .resolve [0] "b"]

theorem qualifier_ofCalls_innerCalls :
    ∃ node, (ofCalls innerCalls).get? [0, 0] = some node ∧
      ∃ earlier call later own, innerCalls = earlier ++ call :: later ∧ MadeBy earlier call [0, 0] ∧
        (ofCalls innerCalls).namesTo [0, 0] = (ofCalls earlier).namesTo call.start ++ own ∧
        node.qualifier = Key.join own := by
  have present : ((ofCalls innerCalls).get? [0, 0]).isSome = true := by decide +kernel
  obtain ⟨node, there⟩ := Option.isSome_iff_exists.1 present
  obtain ⟨earlier, call, later, own, whole, maker, -, names, qualified, -⟩ :=
    (qualifier_ofCalls innerCalls).2 [0, 0] node (by simp) there
  exact ⟨node, there, earlier, call, later, own, whole, maker, names, qualified⟩

/-- A path that is made below a group inside the tree is not qualified from the root on. -/
theorem exists_qualifier_ne_join :
    ((ofCalls [.insert "a.x"]).get? [0]).isSome = true ∧
      ∃ node, (ofCalls [.insert "a.x", .resolve [0] "b"]).get? [0, 0] = some node ∧
        node.qualifier ≠ Key.join ((ofCalls [.insert "a.x", .resolve [0] "b"]).namesTo [0, 0]) := by
  have begins : ((ofCalls [.insert "a.x"]).get? [0]).isSome = true := by decide +kernel
  have qualified : ((ofCalls innerCalls).get? [0, 0]).map (·.qualifier) = some "b" := by
    decide +kernel
  have whole : Key.join ((ofCalls innerCalls).namesTo [0, 0]) = "a.b" := by decide +kernel
  obtain ⟨node, there, own⟩ := Option.map_eq_some_iff.1 qualified
  refine ⟨begins, node, there, ?_⟩
  show node.qualifier ≠ Key.join ((ofCalls innerCalls).namesTo [0, 0])
  rw [own, whole]
  decide

end DottedKeys.Group
