import DottedKeys.Proofs.Source.Collision

/-!
# Merged keys

Dots right before the last name of a key are lost in a tree, so keys that differ in their number alone
(`Key.SameButDots`) come back as one key. That is the only way in which different keys are merged
(`normal_eq_normal_iff`), and such keys are rendered without being refused: a field is compared with
the groups next to it but not with the other fields.
-/

namespace DottedKeys

namespace Key

/-- Keys that differ at most in the number of dots right before the last name. Where something else
stands before these dots, there is one at least. -/
def SameButDots (a b : Text) : Prop :=
  ∃ base field m n, base.getLast? ≠ some dot ∧ dot ∉ field ∧ (base ≠ [] → 0 < m ∧ 0 < n) ∧
    a = base ++ List.replicate m dot ++ field ∧ b = base ++ List.replicate n dot ++ field

theorem dropTrailingDots_append {base : Text} (solid : base.getLast? ≠ some dot) (n : Nat) :
    dropTrailingDots (base ++ List.replicate n dot) = base := by
  induction n with
  | zero =>
    rw [List.replicate_zero, List.append_nil]
    apply List.rdropWhile_eq_self_iff.2
    intro inside
    simpa [List.getLast?_eq_some_getLast inside] using solid
  | succ n ih =>
    rw [List.replicate_succ', ← List.append_assoc]
    exact (List.rdropWhile_concat_pos _ _ dot (by simp)).trans ih

theorem getLast?_dropTrailingDots (t : Text) : (dropTrailingDots t).getLast? ≠ some dot := by
  intro ends
  have inside : dropTrailingDots t ≠ [] := by
    intro bare
    rw [bare] at ends
    contradiction
  have last := List.rdropWhile_last_not (· = dot) t inside
  rw [List.getLast?_eq_some_getLast inside] at ends
  exact last (by simpa [dropTrailingDots] using ends)

/-- A text is what is left without the dots at its end, and these dots. -/
theorem exists_eq_append_replicate (t : Text) :
    ∃ n, t = dropTrailingDots t ++ List.replicate n dot := by
  refine ⟨(t.rtakeWhile (· = dot)).length, ?_⟩
  have dots : t.rtakeWhile (· = dot) = List.replicate (t.rtakeWhile (· = dot)).length dot :=
    List.eq_replicate_iff.2 ⟨rfl, fun c inside => by simpa using List.mem_rtakeWhile_imp inside⟩
  rw [← dots]
  exact List.rdropWhile_append_rtakeWhile.symm

/-- Every key has a last name, and dots before it. -/
theorem exists_dotted (key : Text) :
    ∃ base field n, base.getLast? ≠ some dot ∧ dot ∉ field ∧ (base ≠ [] → 0 < n) ∧
      key = base ++ List.replicate n dot ++ field := by
  cases cut : key.splitLast? dot with
  | none => exact ⟨[], key, 0, by simp, Text.splitLast?_eq_none_iff.1 cut, by simp, by simp⟩
  | some parts =>
    obtain ⟨before, after⟩ := parts
    obtain ⟨n, dots⟩ := exists_eq_append_replicate before
    refine ⟨dropTrailingDots before, after, n + 1, getLast?_dropTrailingDots before,
      Text.not_mem_of_splitLast? cut, fun _ => Nat.succ_pos n, ?_⟩
    rw [List.replicate_succ', ← List.append_assoc, ← dots, List.append_assoc]
    exact Text.eq_of_splitLast? cut

/-- The normal form of a key does not depend on the number of dots before its last name. -/
theorem normal_dotted {base field : Text} {n : Nat} (solid : base.getLast? ≠ some dot)
    (undotted : dot ∉ field) (some_dot : base ≠ [] → 0 < n) :
    normal (base ++ List.replicate n dot ++ field) =
      if base.isEmpty then field else base ++ dot :: field := by
  cases n with
  | zero =>
    have bare : base = [] := by_contra fun some_base => Nat.lt_irrefl 0 (some_dot some_base)
    subst bare
    rw [List.replicate_zero, List.nil_append, List.nil_append, normal,
      Text.splitLast?_eq_none_iff.2 undotted]
    rfl
  | succ n =>
    have last : base ++ List.replicate (n + 1) dot ++ field =
        (base ++ List.replicate n dot) ++ dot :: field := by
      rw [List.replicate_succ', ← List.append_assoc, List.append_assoc]
      rfl
    rw [last, normal, Text.splitLast?_append undotted]
    simp only [dropTrailingDots_append solid]

/-- A normal form tells what stands before the dots and what behind them. -/
theorem normal_form_inj {base base' field field' : Text} (undotted : dot ∉ field)
    (undotted' : dot ∉ field')
    (same : (if base.isEmpty then field else base ++ dot :: field) =
      if base'.isEmpty then field' else base' ++ dot :: field') : base = base' ∧ field = field' := by
  split at same <;> split at same
  next bare bare' => exact ⟨by rw [List.isEmpty_iff.1 bare, List.isEmpty_iff.1 bare'], same⟩
  next => exact absurd (by simp [same]) undotted
  next => exact absurd (by simp [← same]) undotted'
  next =>
    have cut := Text.splitLast?_append undotted base
    rw [same, Text.splitLast?_append undotted'] at cut
    obtain ⟨rfl, rfl⟩ := Prod.mk.inj (Option.some.inj cut)
    exact ⟨rfl, rfl⟩

/-- Keys have one normal form exactly if they differ at most in the dots before the last name. -/
theorem normal_eq_normal_iff {a b : Text} : normal a = normal b ↔ SameButDots a b := by
  constructor
  · intro same
    obtain ⟨base, field, m, solid, undotted, some_dot, rfl⟩ := exists_dotted a
    obtain ⟨base', field', n, solid', undotted', some_dot', rfl⟩ := exists_dotted b
    rw [normal_dotted solid undotted some_dot, normal_dotted solid' undotted' some_dot'] at same
    obtain ⟨rfl, rfl⟩ := normal_form_inj undotted undotted' same
    exact ⟨base, field, m, n, solid, undotted, fun inside => ⟨some_dot inside, some_dot' inside⟩,
      rfl, rfl⟩
  · rintro ⟨base, field, m, n, solid, undotted, some_dot, rfl, rfl⟩
    rw [normal_dotted solid undotted fun inside => (some_dot inside).1,
      normal_dotted solid undotted fun inside => (some_dot inside).2]

end Key

namespace Source

/-- **Merged keys.** The whole keys of a tree of different keys differ exactly if no two of the keys
differ only in the dots before the last name. So different keys are refused or kept apart exactly if
the field of one is hidden or no two differ only in these dots. -/
theorem nodup_keys_iff_sameButDots {keys : List Text} (distinct : keys.Nodup) :
    ((Group.ofKeys keys).keys.Nodup ↔ ∀ a ∈ keys, ∀ b ∈ keys, Key.SameButDots a b → a = b) ∧
      ∀ typeName, ((∃ key, render python (Group.ofKeys keys) typeName = .error (.collision key)) ∨
          (Group.ofKeys keys).keys.Nodup) ↔
        (∃ key ∈ keys, Hidden keys key) ∨ ∀ a ∈ keys, ∀ b ∈ keys, Key.SameButDots a b → a = b := by
  have apart : (Group.ofKeys keys).keys.Nodup ↔
      ∀ a ∈ keys, ∀ b ∈ keys, Key.SameButDots a b → a = b := by
    rw [(Group.keys_ofKeys keys).nodup_iff, List.nodup_map_iff_inj_on distinct]
    simp only [Key.normal_eq_normal_iff]
  refine ⟨apart, fun typeName => ?_⟩
  rw [exists_render_eq_error_iff rfl, apart]

/-- Keys with doubled and leading dots, no two of which come back as one. -/
def dottedKeys : List Text :=
  ["a.x", "a..y", ".z", "..a.x", "x"].map Text.ofString

theorem nodup_keys_iff_sameButDots_dottedKeys :
    dottedKeys.Nodup ∧ (∀ a ∈ dottedKeys, ∀ b ∈ dottedKeys, Key.SameButDots a b → a = b) ∧
      (Group.ofKeys dottedKeys).keys.Nodup := by
  have distinct : dottedKeys.Nodup := by decide +kernel
  have normals : ∀ a ∈ dottedKeys, ∀ b ∈ dottedKeys, Key.normal a = Key.normal b → a = b := by
    decide +kernel
  have apart : ∀ a ∈ dottedKeys, ∀ b ∈ dottedKeys, Key.SameButDots a b → a = b :=
    fun a given b given' alike => normals a given b given' (Key.normal_eq_normal_iff.2 alike)
  exact ⟨distinct, apart, (nodup_keys_iff_sameButDots distinct).1.2 apart⟩

/-- Two keys that come back as one, since nothing but dots stands before the name. -/
def mergedKeys : List Text :=
  ["x", "..x"].map Text.ofString

/-- The keys are rendered, although one constant stands for both. -/
theorem exists_rendered_not_nodup :
    mergedKeys.Nodup ∧ (∃ text, render python (Group.ofKeys mergedKeys) "Keys" = .ok text) ∧
      ¬ (Group.ofKeys mergedKeys).keys.Nodup := by
  have distinct : mergedKeys.Nodup := by decide +kernel
  have accepted : (Group.ofKeys mergedKeys).walk.findSome? (hiddenKey? python) = none := by
    decide +kernel
  have merged : ¬ (Group.ofKeys mergedKeys).keys.Nodup := by decide +kernel
  exact ⟨distinct, (endsAt_render (Group.ofKeys mergedKeys) "Keys").ok_iff.2 accepted, merged⟩

end Source

end DottedKeys
