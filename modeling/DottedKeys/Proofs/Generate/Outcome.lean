import DottedKeys.Generate
import DottedKeys.Proofs.Package
import DottedKeys.Proofs.Text.Utf8

/-!
# How a run ends

A run reads keys, renders them, and packages the source. `ends_loadKeys` and `ends_generate` say how
reading and the whole run end, from any world; nothing is changed on the disk before packaging
begins. What a run that returns leaves behind is `left_by_generate`.
-/

namespace DottedKeys.Generate

open DottedKeys.Action Disk Package Source

theorem ends_layoutOf {language : Text} {w : World} {returns : Layout → World → Prop}
    {fails : Failure → World → Prop} :
    Ends (Action.ofExcept .source (layoutOf language)) w returns fails ↔
      (∀ layout, layout? language = some layout → returns layout w) ∧
        (layout? language = none → fails (.source (.unknownLanguage language)) w) := by
  rw [layoutOf]
  cases layout? language with
  | none => simp [Action.ofExcept, ends_throw]
  | some layout => simp [Action.ofExcept, ends_pure]

section Runs

variable [Codecs]

/-- How reading keys ends. A failure that keeps properties from being read is logged and the keys
before it count, unless it is one that a run does not recover from. -/
theorem ends_loadKeys (file encoding : Text) (w : World) :
    Ends (loadKeys file encoding) w
      (fun keys after => keys = Key.sort (load file encoding w.disk).table.keys ∧
        (∀ failure ∈ (load file encoding w.disk).failure, failure.isRecoverable = true) ∧
        after.disk = w.disk ∧
        after.log = w.log ++ ((load file encoding w.disk).failure.map
          (.unread file (load file encoding w.disk).table.keys.length)).toList ++
            [.loaded file keys.length])
      (fun failure after => (load file encoding w.disk).failure = some failure ∧
        failure.isRecoverable = false ∧ after = w) := by
  rw [loadKeys, ends_bind, ends_disk]
  generalize load file encoding w.disk = loaded
  obtain ⟨table, failure⟩ := loaded
  cases failure with
  | none =>
    rw [ends_bind, ends_report, ends_pure]
    exact ⟨rfl, by simp, rfl, by simp⟩
  | some failure =>
    dsimp only
    cases recovers : failure.isRecoverable with
    | true =>
      rw [if_pos rfl, ends_bind, ends_report, ends_bind, ends_report, ends_pure]
      exact ⟨rfl, by simp [recovers], rfl, by simp⟩
    | false =>
      rw [if_neg Bool.false_ne_true, ends_bind, ends_throw]
      exact ⟨rfl, recovers, rfl⟩

/-- The ways in which a run fails before it packages anything. -/
inductive FailsEarly (c : Config) (d : Disk) : Failure → Prop where
  | language (unknown : layout? c.language = none) :
      FailsEarly c d (.source (.unknownLanguage c.language))
  | reading {failure : Failure} (unread : (load c.properties c.encoding d).failure = some failure)
      (stuck : failure.isRecoverable = false) : FailsEarly c d failure
  | rendering {layout : Layout} {fault : Source.Fault} (known : layout? c.language = some layout)
      (refused : render layout (Group.ofKeys (Key.sort (load c.properties c.encoding d).table.keys))
        c.typeName = .error fault) : FailsEarly c d (.source fault)
  | naming {layout : Layout} {fault : TypeNameFault} (known : layout? c.language = some layout)
      (unnamed : entryName c.typeName layout.suffix = .error fault) : FailsEarly c d (.typeName fault)

/-- The ways in which a run fails while it packages. -/
def FailsLate (c : Config) (failure : Failure) : Prop :=
  ∃ layout entry, layout? c.language = some layout ∧
    entryName c.typeName layout.suffix = .ok entry ∧ Package.Fails c.staging c.archive entry failure

/-- How a run ends. If it returns, every step before packaging gave what it gives on the disk as it
was, and the steps of packaging are done; if it fails before packaging, the disk is as it was. -/
theorem ends_generate_steps (c : Config) (w : World) :
    Ends (generate c) w
      (fun entry after => ∃ layout contents, layout? c.language = some layout ∧
        entryName c.typeName layout.suffix = .ok entry ∧
        (∀ failure ∈ (load c.properties c.encoding w.disk).failure, failure.isRecoverable = true) ∧
        render layout (Group.ofKeys (Key.sort (load c.properties c.encoding w.disk).table.keys))
          c.typeName = .ok contents ∧
        Steps c.staging c.archive entry (Utf8.encode contents) w.disk after.disk)
      (fun failure after => (FailsEarly c w.disk failure ∧ after.disk = w.disk) ∨ FailsLate c failure) := by
  rw [generate, ends_bind, ends_layoutOf]
  refine ⟨fun layout known => ?_, fun unknown => .inl ⟨.language unknown, rfl⟩⟩
  refine (ends_loadKeys c.properties c.encoding w).bind ?_ ?_
  · rintro _ read ⟨rfl, recovers, same, -⟩
    rw [ends_bind, ends_ofExcept]
    refine ⟨fun contents rendered => ?_, fun fault refused => .inl ⟨.rendering known refused, same⟩⟩
    refine (ends_steps c.staging c.archive c.typeName contents layout.suffix read).mono ?_ ?_
    · rintro entry after ⟨named, steps⟩
      rw [same] at steps
      exact ⟨layout, contents, known, named, recovers, rendered, steps⟩
    · rintro failure after (⟨fault, unnamed, rfl, rfl⟩ | ⟨entry, named, fails⟩)
      · exact .inl ⟨.naming known unnamed, same⟩
      · exact .inr ⟨layout, entry, known, named, fails⟩
  · rintro failure after ⟨unread, stuck, rfl⟩
    exact .inl ⟨.reading unread stuck, rfl⟩

/-- What a run that returns has packed, if the archive is not the staged file. -/
theorem ends_generate (c : Config) (w : World) :
    Ends (generate c) w
      (fun entry after => ∃ layout contents, layout? c.language = some layout ∧
        entryName c.typeName layout.suffix = .ok entry ∧
        (∀ failure ∈ (load c.properties c.encoding w.disk).failure, failure.isRecoverable = true) ∧
        render layout (Group.ofKeys (Key.sort (load c.properties c.encoding w.disk).table.keys))
          c.typeName = .ok contents ∧
        (destination (.parse c.archive) ≠ destination (stagedPath c.staging entry) →
          Packed c.archive (stagedPath c.staging entry) entry (Utf8.encode contents)
            w.disk after.disk))
      (fun failure after => (FailsEarly c w.disk failure ∧ after.disk = w.disk) ∨ FailsLate c failure) :=
  (ends_generate_steps c w).mono
    (fun _ _ ⟨layout, contents, known, named, recovers, rendered, steps⟩ =>
      ⟨layout, contents, known, named, recovers, rendered, packed_of_steps steps⟩)
    fun _ _ => id

/-- Reading returns keys unless it fails in a way that a run does not recover from. -/
theorem result_loadKeys {file encoding : Text} {d : Disk}
    (recovers : ∀ failure ∈ (load file encoding d).failure, failure.isRecoverable = true) :
    ((loadKeys file encoding).perform d).result = .ok (Key.sort (load file encoding d).table.keys) := by
  have ended := ends_loadKeys file encoding ⟨d, []⟩
  cases result : ((loadKeys file encoding).perform d).result with
  | ok keys => rw [(ended.returned result).1]
  | error failure =>
    obtain ⟨unread, stuck, -⟩ := ended.failed result
    rw [recovers failure unread] at stuck
    contradiction

/-- **What a run leaves.** A run that returns gives the entry name of the type. If the archive is not
the staged file itself, that file holds the source as UTF-8, the archive has it for its only member,
and everything else is as it was but for directories on the way to the staged file; the keys of the
source are those that were read on the disk as it was. -/
theorem left_by_generate {c : Config} {d : Disk} {entry : Text}
    (returned : ((generate c).perform d).result = .ok entry)
    (apart : destination (.parse c.archive) ≠ destination (stagedPath c.staging entry)) :
    ∃ layout keys contents, layout? c.language = some layout ∧
      entryName c.typeName layout.suffix = .ok entry ∧
      ((loadKeys c.properties c.encoding).perform d).result = .ok keys ∧
      render layout (Group.ofKeys keys) c.typeName = .ok contents ∧
      Packed c.archive (stagedPath c.staging entry) entry
        (contents.flatMap fun point => String.utf8EncodeChar (point.toChar?.getD '?'))
        d ((generate c).perform d).disk := by
  obtain ⟨layout, contents, known, named, recovers, rendered, packed⟩ :=
    (ends_generate c ⟨d, []⟩).returned returned
  rw [Utf8.encode_eq] at packed
  exact ⟨layout, _, contents, known, named, result_loadKeys recovers, rendered, packed apart⟩

end Runs

/-- Settings under which the archive takes the place of the properties, between staged files. -/
def replacing : Config where
  archive := "build/app.keys"
  properties := "build/app.keys"
  typeName := "com.Keys"
  staging := "build"
  language := "java"
  encoding := "utf-8"

/-- A disk with properties and with a source that was staged before. -/
def staleDisk : Disk where
  entries :=
    [(⟨false, [.ofText "build"]⟩, .directory),
      (⟨false, [.ofText "build", .ofText "app.keys"]⟩, .file (Utf8.encode "a.b = 1\n")),
      (⟨false, [.ofText "build", .ofText "com"]⟩, .directory),
      (⟨false, [.ofText "build", .ofText "com", .ofText "Keys.java"]⟩, .file (Utf8.encode "class"))]

theorem left_by_generate_replacing :
    ((generate replacing).perform staleDisk).result = .ok "com/Keys.java" ∧
      destination (.parse replacing.archive) ≠ destination (stagedPath replacing.staging "com/Keys.java") ∧
      ∃ contents, render java (Group.ofKeys ["a.b"]) "com.Keys" = .ok contents ∧
        Packed replacing.archive (stagedPath replacing.staging "com/Keys.java") "com/Keys.java"
          (contents.flatMap fun point => String.utf8EncodeChar (point.toChar?.getD '?'))
          staleDisk ((generate replacing).perform staleDisk).disk := by
  have returned : ((generate replacing).perform staleDisk).result = .ok "com/Keys.java" := by
    decide +kernel
  have apart : destination (.parse replacing.archive) ≠
      destination (stagedPath replacing.staging "com/Keys.java") := by decide +kernel
  obtain ⟨layout, keys, contents, known, -, read, rendered, packed⟩ := left_by_generate returned apart
  have sorted : ((loadKeys replacing.properties replacing.encoding).perform staleDisk).result =
      .ok ["a.b"] := by decide +kernel
  have found : layout? replacing.language = some java := rfl
  obtain rfl := Option.some.inj (known.symm.trans found)
  obtain rfl := Except.ok.inj (read.symm.trans sorted)
  exact ⟨returned, apart, contents, rendered, packed⟩

end DottedKeys.Generate
