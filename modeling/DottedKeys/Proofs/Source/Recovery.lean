import DottedKeys.Proofs.Source.Listing

/-!
# Trees recovered from source

Nothing is lost when a tree of plain names is rendered. A line determines how deep it stands and what
it declares (`text_inj`), the depths of lines determine which of them are nested in a group even where
no line closes it (`linesOfAll_append_inj`), and declarations determine their group
(`eq_of_members`). `eq_of_render` puts these together for whole files.
-/

namespace DottedKeys

namespace Source

open DottedKeys.Text

/-! ## Lines -/

section Line

variable {l : Layout} {f : Form} {closes : Bool}

/-- Plain items are known by what they look like. -/
theorem item_text_inj (sound : f.Sound) {item other : Item} (plain : item.Plain closes)
    (plain_other : other.Plain closes) (same : item.text f = other.text f) : item = other := by
  have alike : item.constant? = other.constant? := by
    rw [← constant?_item sound plain, ← constant?_item sound plain_other, same]
  have apart : ∀ name, (Item.opening name).text f ≠ Item.closing.text f := by
    intro name same
    apply sound.spaced.2
    have blank : CodePoint.ofChar ' ' ∈ (Item.opening name).text f := by
      simp [Item.text, sound.spaced.1]
    rwa [same] at blank
  cases item with
  | constant name value =>
    cases other with
    | constant _ _ =>
      obtain ⟨rfl, rfl⟩ := Prod.mk.inj (Option.some.inj alike)
      rfl
    | opening _ => contradiction
    | closing => contradiction
  | opening name =>
    cases other with
    | constant _ _ => contradiction
    | opening _ =>
      obtain rfl := List.append_cancel_left (List.append_cancel_right same)
      rfl
    | closing => exact absurd same (apart name)
  | closing =>
    cases other with
    | constant _ _ => contradiction
    | opening name => exact absurd same.symm (apart name)
    | closing => rfl

/-- Plain lines are known by their text. -/
theorem text_inj (fits : f.Fits l) (sound : f.Sound) {line other : Line}
    (plain : line.item.Plain closes) (plain_other : other.item.Plain closes)
    (same : line.text l f = other.text l f) : line = other := by
  have indented : line.indentation l = other.indentation l := by
    rw [← takeWhile_text fits sound plain, ← takeWhile_text fits sound plain_other, same]
  have shown : line.item.text f = other.item.text f := by
    rw [← dropWhile_text fits sound plain, ← dropWhile_text fits sound plain_other, same]
  have depth : line.depth = other.depth := by
    have unit : 0 < l.indent.length := List.length_pos_iff.2 fits.indented.1
    have long := congrArg List.length indented
    simp only [Line.indentation, List.length_flatten, List.map_replicate,
      List.sum_replicate_nat] at long
    exact Nat.eq_of_mul_eq_mul_right unit long
  have item := item_text_inj sound plain plain_other shown
  cases line
  cases other
  cases depth
  cases item
  rfl

end Line

/-! ## Nesting -/

section Nesting

variable {closes : Bool} {depth : Nat}

/-- Lines that go on less deep, if they go on. -/
def Shallow (depth : Nat) (ls : List Line) : Prop :=
  ∀ line ∈ ls.head?, line.depth < depth

/-- A declaration starts with a line of its own depth. -/
theorem linesOf_eq_cons (closes : Bool) (depth : Nat) (d : Declaration) :
    ∃ item more, linesOf closes depth d = ⟨depth, item⟩ :: more := by
  cases d with
  | constant name value => exact ⟨_, [], by rw [linesOf]⟩
  | group name members => exact ⟨_, _, by rw [linesOf, List.cons_append]⟩

/-- What follows a declaration on its own level is less deep than what is inside. -/
theorem shallow_linesOfAll (ds : List Declaration) {rest : List Line} (shallow : Shallow depth rest) :
    Shallow (depth + 1) (linesOfAll closes depth ds ++ rest) := by
  cases ds with
  | nil => exact fun line first => Nat.lt_succ_of_lt (shallow line first)
  | cons d ds =>
    obtain ⟨item, more, starts⟩ := linesOf_eq_cons closes depth d
    intro line first
    rw [linesOfAll, starts] at first
    obtain rfl := Option.some.inj first
    exact Nat.lt_succ_self depth

theorem shallow_closing {rest : List Line} (shallow : Shallow (depth + 1) rest) :
    Shallow (depth + 1) ((if closes then [⟨depth, .closing⟩] else []) ++ rest) := by
  cases closes with
  | false => exact shallow
  | true =>
    intro line first
    obtain rfl := Option.some.inj first
    exact Nat.lt_succ_self depth

/-- Lines that start less deep are none of a declaration. -/
theorem ne_linesOf {d : Declaration} {rest more : List Line} (shallow : Shallow depth rest) :
    rest ≠ linesOf closes depth d ++ more := by
  rintro rfl
  obtain ⟨item, others, starts⟩ := linesOf_eq_cons closes depth d
  have first := shallow ⟨depth, item⟩ (by rw [starts]; rfl)
  exact absurd first (Nat.lt_irrefl depth)

mutual

/-- The lines of a declaration say where it ends, and what it is. -/
theorem linesOf_append_inj (closes : Bool) (depth : Nat) : (d e : Declaration) →
    {rest more : List Line} → Shallow (depth + 1) rest → Shallow (depth + 1) more →
    linesOf closes depth d ++ rest = linesOf closes depth e ++ more → d = e ∧ rest = more
  | .constant name value, .constant name' value', rest, more, _, _, same => by
    rw [linesOf, linesOf] at same
    obtain ⟨first, later⟩ := List.cons.inj same
    cases first
    exact ⟨rfl, later⟩
  | .constant name value, .group name' members', rest, more, _, _, same => by
    rw [linesOf, linesOf] at same
    cases (List.cons.inj same).1
  | .group name members, .constant name' value', rest, more, _, _, same => by
    rw [linesOf, linesOf] at same
    cases (List.cons.inj same).1
  | .group name members, .group name' members', rest, more, ends, ends', same => by
    rw [linesOf, linesOf, List.cons_append, List.cons_append, List.cons_append, List.cons_append,
      List.append_assoc, List.append_assoc] at same
    obtain ⟨first, later⟩ := List.cons.inj same
    cases first
    -- What follows the members, a closing line or what `rest` goes on with, is less deep than they.
    obtain ⟨rfl, after⟩ := linesOfAll_append_inj closes (depth + 1) members members'
      (shallow_closing ends) (shallow_closing ends') later
    exact ⟨rfl, List.append_cancel_left after⟩

/-- The lines of declarations say where these end, and what they are. -/
theorem linesOfAll_append_inj (closes : Bool) (depth : Nat) : (ds es : List Declaration) →
    {rest more : List Line} → Shallow depth rest → Shallow depth more →
    linesOfAll closes depth ds ++ rest = linesOfAll closes depth es ++ more → ds = es ∧ rest = more
  | [], [], rest, more, _, _, same => ⟨rfl, same⟩
  | [], e :: es, rest, more, ends, _, same => by
    rw [linesOfAll, linesOfAll, List.append_assoc] at same
    exact absurd same (ne_linesOf ends)
  | d :: ds, [], rest, more, _, ends', same => by
    rw [linesOfAll, linesOfAll, List.append_assoc] at same
    exact absurd same.symm (ne_linesOf ends')
  | d :: ds, e :: es, rest, more, ends, ends', same => by
    rw [linesOfAll, linesOfAll, List.append_assoc, List.append_assoc] at same
    obtain ⟨rfl, later⟩ := linesOf_append_inj closes depth d e (shallow_linesOfAll ds ends)
      (shallow_linesOfAll es ends') same
    obtain ⟨rfl, after⟩ := linesOfAll_append_inj closes depth ds es ends ends' later
    exact ⟨rfl, after⟩

end

/-- Declarations are known by their lines. -/
theorem linesOfAll_inj {ds es : List Declaration}
    (same : linesOfAll closes depth ds = linesOfAll closes depth es) : ds = es := by
  have none_left : Shallow depth [] := by
    intro line first
    contradiction
  refine (linesOfAll_append_inj closes depth ds es none_left none_left ?_).1
  rw [same]

end Nesting

/-! ## Groups -/

theorem eq_of_map_eq {α β : Type} {F : α → β} {xs ys : List α}
    (inj : ∀ x ∈ xs, ∀ y ∈ ys, F x = F y → x = y) (same : xs.map F = ys.map F) : xs = ys := by
  induction xs generalizing ys with
  | nil =>
    rw [List.map_nil] at same
    exact (List.map_eq_nil_iff.1 same.symm).symm
  | cons x xs ih =>
    cases ys with
    | nil => contradiction
    | cons y ys =>
      obtain ⟨first, later⟩ := List.cons.inj same
      rw [inj x List.mem_cons_self y List.mem_cons_self first]
      rw [ih (fun x member y among => inj x (.tail _ member) y (.tail _ among)) later]

/-- Constants followed by groups are known by their declarations. -/
theorem constants_append_inj {constants others : List (Text × Text)} {groups more : List Group}
    (same : (constants.map fun c => Declaration.constant c.1 c.2) ++
        groups.map (fun g => .group g.name (members g)) =
      (others.map fun c => Declaration.constant c.1 c.2) ++
        more.map fun g => .group g.name (members g)) :
    constants = others ∧ (groups.map fun g => Declaration.group g.name (members g)) =
      more.map fun g => .group g.name (members g) := by
  induction constants generalizing others with
  | nil =>
    cases others with
    | nil => exact ⟨rfl, same⟩
    | cons c others => cases groups <;> simp at same
  | cons c constants ih =>
    cases others with
    | nil => cases more <;> simp at same
    | cons d others =>
      obtain ⟨first, later⟩ := List.cons.inj same
      obtain ⟨name, value⟩ := Declaration.constant.inj first
      obtain ⟨rfl, groups_same⟩ := ih later
      rw [Prod.ext name value]
      exact ⟨rfl, groups_same⟩

theorem map_fst_constantsOf (g : Group) :
    (constantsOf g).map Prod.fst = (if g.isRoot then [] else [rootConstant]) ++ g.fields := by
  rw [constantsOf, List.map_append, List.map_map]
  congr 1
  · split <;> rfl
  · exact List.map_id _

/-- Among roots, and among groups that are none, constants determine the path and the fields. -/
theorem constantsOf_inj {g h : Group} (alike : g.isRoot = h.isRoot)
    (same : constantsOf g = constantsOf h) : g.qualifier = h.qualifier ∧ g.fields = h.fields := by
  constructor
  · cases root : h.isRoot with
    | true =>
      rw [root, Group.isRoot, List.isEmpty_iff] at alike
      rw [Group.isRoot, List.isEmpty_iff] at root
      exact alike.trans root.symm
    | false =>
      rw [constantsOf, constantsOf, alike, root] at same
      exact (Prod.mk.inj (List.cons.inj same).1).2
  · have names := congrArg (List.map Prod.fst) same
    rw [map_fst_constantsOf, map_fst_constantsOf, alike] at names
    exact List.append_cancel_left names

/-- What holds of all groups below one holds of each child and of all groups below that. -/
theorem forall_child_of_forall_below {Holds : Group → Prop} {g child : Group}
    (below : ∀ node ∈ Group.walkAll g.children, Holds node) (member : child ∈ g.children) :
    Holds child ∧ ∀ node ∈ Group.walkAll child.children, Holds node := by
  have inside : ∀ node ∈ child.walk, Holds node := fun node met =>
    below node (Group.mem_walkAll.2 ⟨child, member, met⟩)
  rwa [Group.walk_eq, List.forall_mem_cons] at inside

/-- Groups below which no group is written out as a root are known by their declarations. -/
theorem eq_of_members {g h : Group} (nested : ∀ node ∈ Group.walkAll g.children, node.isRoot = false)
    (nested' : ∀ node ∈ Group.walkAll h.children, node.isRoot = false)
    (alike : g.isRoot = h.isRoot) (named : g.name = h.name) (same : members g = members h) :
    g = h := by
  induction g using Group.byChildren generalizing h with
  | step g ih =>
    rw [members_eq_constantsOf, members_eq_constantsOf] at same
    obtain ⟨constants, groups⟩ := constants_append_inj same
    obtain ⟨qualifier, fields⟩ := constantsOf_inj alike constants
    have children : g.children = h.children := by
      refine eq_of_map_eq (fun child member other among same => ?_) groups
      obtain ⟨name, inner⟩ := Declaration.group.inj same
      obtain ⟨own, below⟩ := forall_child_of_forall_below nested member
      obtain ⟨own', below'⟩ := forall_child_of_forall_below nested' among
      exact ih child member below below' (own.trans own'.symm) name inner
    cases g
    cases h
    cases qualifier
    cases named
    cases fields
    cases children
    rfl

/-- Trees of plain names are known by the lines that they are printed in. -/
theorem ofKeys_eq_of_printed {l : Layout} {f : Form} (fits : f.Fits l) (sound : f.Sound)
    {keys others : List Text} (worded : ∀ key ∈ keys, Key.Worded key)
    (worded_others : ∀ key ∈ others, Key.Worded key)
    (same : printed l f (Group.ofKeys keys) = printed l f (Group.ofKeys others)) :
    Group.ofKeys keys = Group.ofKeys others := by
  have plain := plain_lines (plain_of_mem_walk worded) (!f.close.isEmpty) 1
  have plain_others := plain_lines (plain_of_mem_walk worded_others) (!f.close.isEmpty) 1
  have lines := eq_of_map_eq (fun line member other among =>
    text_inj fits sound (plain line member) (plain_others other among)) same
  have qualifier : ∀ keys, (Group.ofKeys keys).qualifier = [] := fun keys =>
    (Group.qualified_ofKeys keys).own
  refine eq_of_members (not_isRoot_below fun key given => (worded key given).solid)
    (not_isRoot_below fun key given => (worded_others key given).solid) ?_ ?_ (linesOfAll_inj lines)
  · rw [Group.isRoot, Group.isRoot, qualifier, qualifier]
  · rw [Group.name_ofKeys, Group.name_ofKeys]

/-! ## Files -/

theorem spaced_inj {ls more : List Text} (same : spaced ls = spaced more) : ls = more := by
  have cons : ∀ (line : Text) (ls : List Text), spaced (line :: ls) = line :: [] :: spaced ls :=
    fun _ _ => rfl
  induction ls generalizing more with
  | nil =>
    cases more with
    | nil => rfl
    | cons other more => contradiction
  | cons line ls ih =>
    cases more with
    | nil => contradiction
    | cons other more =>
      rw [cons, cons, List.cons.injEq, List.cons.injEq] at same
      rw [same.1, ih same.2.2]

section Headers

variable {package simpleName package' simpleName' : Text}

/-- A package is known by the title of its module. -/
theorem titleLine_inj (same : titleLine package = titleLine package') : package = package' := by
  have title := List.append_cancel_left same
  have shorter : ∀ package : Text,
      ("Configuration keys." : Text) ≠ "Configuration keys for package " ++ package ++ "." := by
    intro package same
    have long := congrArg List.length same
    have first : ("Configuration keys." : Text).length = 19 := by decide
    have second : ("Configuration keys for package " : Text).length = 31 := by decide
    rw [List.length_append, List.length_append, first, second] at long
    omega
  cases package with
  | nil =>
    cases package' with
    | nil => rfl
    | cons c rest => exact absurd title (shorter _)
  | cons c rest =>
    cases package' with
    | nil => exact absurd title.symm (shorter _)
    | cons d more => exact List.append_cancel_left (List.append_cancel_right title)

/-- The names in the lines of a module are known by these lines, and so are the lines that follow. -/
theorem moduleLines_append_inj {rest more : List Text}
    (same : moduleLines package simpleName ++ rest = moduleLines package' simpleName' ++ more) :
    package = package' ∧ simpleName = simpleName' ∧ rest = more := by
  simp only [moduleLines, List.append_assoc, List.cons_append, List.nil_append] at same
  obtain ⟨title, later⟩ := List.cons.inj same
  obtain ⟨opening, members⟩ := List.cons.inj (List.append_cancel_left later)
  exact ⟨titleLine_inj title, List.append_cancel_right (List.append_cancel_left opening),
    (List.cons.inj members).2⟩

/-- A package is known by the lines that name it, if what follows starts with a comment. -/
theorem packageLines_append_inj {rest more : List Text}
    (same : packageLines package ++ (bannerLines ++ rest) =
      packageLines package' ++ (bannerLines ++ more)) : package = package' ∧ rest = more := by
  have apart : ∀ name : Text, ("/*" : Text) ≠ "package " ++ name ++ ";" := by
    intro name same
    have first := congrArg List.head? same
    have letter : ("package " : Text).head? = some (CodePoint.ofChar 'p') := rfl
    rw [List.append_assoc, List.head?_append, letter, Option.some_or] at first
    exact absurd first (by decide)
  cases package with
  | nil =>
    cases package' with
    | nil => exact ⟨rfl, List.append_cancel_left same⟩
    | cons c others => exact absurd (List.cons.inj same).1 (apart _)
  | cons c others =>
    cases package' with
    | nil => exact absurd (List.cons.inj same).1.symm (apart _)
    | cons d others' =>
      obtain ⟨first, later⟩ := List.cons.inj same
      exact ⟨List.append_cancel_left (List.append_cancel_right first),
        List.append_cancel_left (List.cons.inj later).2⟩

/-- The names in the lines that open a class are known by these lines, and so are the lines that
follow. -/
theorem classLines_append_inj {rest more : List Text}
    (same : classLines package simpleName ++ rest = classLines package' simpleName' ++ more) :
    package = package' ∧ simpleName = simpleName' ∧ rest = more := by
  have parts : ∀ (package simpleName : Text) (rest : List Text),
      classLines package simpleName ++ rest = packageLines package ++ (bannerLines ++
        ("public final class " ++ simpleName ++ " \x7b") :: [] :: rest) := by
    intro package simpleName rest
    rw [classLines, List.append_assoc, List.append_assoc]
    rfl
  rw [parts, parts] at same
  obtain ⟨package_same, later⟩ := packageLines_append_inj same
  obtain ⟨opening, members⟩ := List.cons.inj later
  exact ⟨package_same, List.append_cancel_left (List.append_cancel_right opening),
    (List.cons.inj members).2⟩

end Headers

/-- The line that stands for the members of a class without any. -/
def idleLine : Text := "    pass"

theorem not_mem_printed_idle {keys : List Text} (worded : ∀ key ∈ keys, Key.Worded key) :
    idleLine ∉ printed python pythonForm (Group.ofKeys keys) := by
  intro member
  obtain ⟨last, mark, ends⟩ := exists_getLast?_python worded idleLine member
  have letter : idleLine.getLast? = some (CodePoint.ofChar 's') := by decide
  obtain rfl := Option.some.inj (letter.symm.trans ends)
  exact absurd mark (by decide)

/-- The lines in a class of a module are known, also if there are none. -/
theorem memberLines_inj {ls more : List Text} (busy : idleLine ∉ ls) (busy' : idleLine ∉ more)
    (same : (if ls.isEmpty then idleLines else spaced ls) =
      if more.isEmpty then idleLines else spaced more) : ls = more := by
  have idle : idleLines = spaced [idleLine] := rfl
  rw [idle] at same
  cases ls with
  | nil =>
    cases more with
    | nil => rfl
    | cons line more => exact absurd (spaced_inj same ▸ List.mem_cons_self) busy'
  | cons line ls =>
    cases more with
    | nil => exact absurd (spaced_inj same ▸ List.mem_cons_self) busy
    | cons other more => exact spaced_inj same

section Recover

variable {keys others : List Text} {typeName otherType text : Text}
  (worded : ∀ key ∈ keys, Key.Worded key) (worded_others : ∀ key ∈ others, Key.Worded key)
  (worded_type : Key.Worded typeName) (worded_other : Key.Worded otherType)
include worded worded_others worded_type worded_other

/-- A file with one class determines its type and its tree. -/
theorem eq_of_render_java (rendered : render java (Group.ofKeys keys) typeName = .ok text)
    (rendered_other : render java (Group.ofKeys others) otherType = .ok text) :
    typeName = otherType ∧ Group.ofKeys keys = Group.ofKeys others := by
  have lines := lines_of_render_java worded worded_type rendered
  rw [lines_of_render_java worded_others worded_other rendered_other, List.append_assoc,
    List.append_assoc] at lines
  obtain ⟨package, name, members⟩ := classLines_append_inj lines.symm
  have printed := spaced_inj (List.append_cancel_right members)
  exact ⟨Key.splitQualified_inj worded_type.solid worded_other.solid (Prod.ext package name),
    ofKeys_eq_of_printed javaForm_fits javaForm_sound worded worded_others printed⟩

/-- A module determines its type and its tree. -/
theorem eq_of_render_python (rendered : render python (Group.ofKeys keys) typeName = .ok text)
    (rendered_other : render python (Group.ofKeys others) otherType = .ok text) :
    typeName = otherType ∧ Group.ofKeys keys = Group.ofKeys others := by
  have lines := lines_of_render_python worded worded_type rendered
  rw [lines_of_render_python worded_others worded_other rendered_other] at lines
  obtain ⟨package, name, members⟩ := moduleLines_append_inj lines.symm
  have printed := memberLines_inj (not_mem_printed_idle worded)
    (not_mem_printed_idle worded_others) members
  exact ⟨Key.splitQualified_inj worded_type.solid worded_other.solid (Prod.ext package name),
    ofKeys_eq_of_printed pythonForm_fits pythonForm_sound worded worded_others printed⟩

end Recover

/-- **Rendering loses nothing.** Two lists of keys and two types of plain names with the same source
in some language have the same type and the same tree. -/
theorem eq_of_render {l : Layout} (known : l ∈ layouts) {keys others : List Text}
    {typeName otherType text : Text} (worded : ∀ key ∈ keys, Key.Worded key)
    (worded_others : ∀ key ∈ others, Key.Worded key) (worded_type : Key.Worded typeName)
    (worded_other : Key.Worded otherType)
    (rendered : render l (Group.ofKeys keys) typeName = .ok text)
    (rendered_other : render l (Group.ofKeys others) otherType = .ok text) :
    typeName = otherType ∧ Group.ofKeys keys = Group.ofKeys others := by
  rcases List.mem_pair.1 known with rfl | rfl
  · exact eq_of_render_java worded worded_others worded_type worded_other rendered rendered_other
  · exact eq_of_render_python worded worded_others worded_type worded_other rendered rendered_other

/-- Keys that come in one order and in another, of which one tree is made. -/
def mixedKeys : List Text :=
  ["a.b", "c", "a.d.e"].map Text.ofString

theorem eq_of_render_mixedKeys :
    python ∈ layouts ∧ (∀ key ∈ mixedKeys, Key.Worded key) ∧
      (∀ key ∈ mixedKeys.reverse, Key.Worded key) ∧ Key.Worded "config.Keys" ∧
      ∃ text, render python (Group.ofKeys mixedKeys) "config.Keys" = .ok text ∧
        render python (Group.ofKeys mixedKeys.reverse) "config.Keys" = .ok text ∧
        Group.ofKeys mixedKeys = Group.ofKeys mixedKeys.reverse := by
  have known : python ∈ layouts := List.mem_cons_of_mem java List.mem_cons_self
  have worded : ∀ key ∈ mixedKeys, Key.Worded key := by decide +kernel
  have worded_others : ∀ key ∈ mixedKeys.reverse, Key.Worded key := by
    simpa only [List.mem_reverse] using worded
  have worded_type : Key.Worded "config.Keys" := by decide +kernel
  have accepted : (render python (Group.ofKeys mixedKeys) "config.Keys").toOption.isSome = true := by
    decide +kernel
  have alike : render python (Group.ofKeys mixedKeys.reverse) "config.Keys" =
      render python (Group.ofKeys mixedKeys) "config.Keys" := by
    decide +kernel
  obtain ⟨text, rendered⟩ := exists_eq_ok_of_toOption accepted
  have rendered_other := alike.trans rendered
  have recovered :=
    eq_of_render known worded worded_others worded_type worded_type rendered rendered_other
  exact ⟨known, worded, worded_others, worded_type, text, rendered, rendered_other, recovered.2⟩

end Source

end DottedKeys
