import DottedKeys.CommandLine
import DottedKeys.Proofs.Generate.Outcome

/-!
# Runs that leave the disk alone

Everything that can be refused without writing is looked at before the first write. `Preparatory`
lists the failures that only the steps before packaging have, `Misused` the arguments that make no
settings, and `disk_of_preparatory` says that neither changes the disk.
-/

namespace DottedKeys.Generate

open DottedKeys.Action Disk Package

/-- The failures that only the steps before packaging have: the language, the encoding and its name,
the bytes of the properties, a hidden key, and the type name. -/
inductive Preparatory : Failure → Prop where
  | language (name : Text) : Preparatory (.source (.unknownLanguage name))
  | encoding (fault : Encoding.NameFault) : Preparatory (.unknownEncoding fault)
  | encodingName (flaw : NameFlaw) : Preparatory (.encodingName flaw)
  | decoding (fault : Encoding.Fault) : Preparatory (.encoding fault)
  | collision (key : Text) : Preparatory (.source (.collision key))
  | typeName (fault : TypeNameFault) : Preparatory (.typeName fault)

/-- Packaging fails for the disk or for the name of a member, so for nothing that is preparatory. -/
theorem FailsLate.not_preparatory {c : Config} {failure : Failure} (late : FailsLate c failure) :
    ¬ Preparatory failure := by
  obtain ⟨layout, entry, -, -, fails⟩ := late
  intro preparatory
  cases fails with
  | disk asked faulty =>
    obtain ⟨fault, rfl, -⟩ := faulty
    cases preparatory
  | member flawed => cases preparatory

section Runs

variable [Codecs]

/-- A run that fails leaves the disk as it was, or fails while it packages. -/
theorem disk_eq_or_failsLate {c : Config} {d : Disk} {failure : Failure}
    (result : ((generate c).perform d).result = .error failure) :
    ((generate c).perform d).disk = d ∨ FailsLate c failure :=
  ((ends_generate c ⟨d, []⟩).failed result).imp_left And.right

/-- Arguments that are refused, or that give options which make no settings. -/
inductive Misused (arguments : List Text) : Prop where
  | refused {refusal : CommandLine.Refusal}
      (read : CommandLine.read arguments = .error (.refusal refusal)) : Misused arguments
  | unset {given : CommandLine.Given} {fault : UsageFault}
      (read : CommandLine.read arguments = .ok given)
      (settings : Config.ofOptions given.options = .error (.usage fault)) : Misused arguments

/-- A misused command line says how it is used, and does no more. -/
theorem run_of_misused {arguments : List Text} (misused : Misused arguments) (d : Disk) :
    ∃ before after, CommandLine.run arguments d =
      ⟨.ok 1, [], before ++ CommandLine.usage ++ after, d⟩ := by
  cases misused with
  | @refused refusal read =>
    refine ⟨[], CommandLine.programName ++ ": error: " ++ refusal.message ++ "\n", ?_⟩
    simp only [CommandLine.run, read, List.nil_append, List.append_assoc]
  | @unset given fault read settings =>
    refine ⟨fault.message ++ "\n", [], ?_⟩
    simp only [CommandLine.run, read, settings, List.append_nil, List.append_assoc]

theorem disk_runConfig (level : Level) (c : Config) (d : Disk) :
    (CommandLine.runConfig level c d).disk = ((generate c).perform d).disk := by
  unfold CommandLine.runConfig
  dsimp only
  split
  next => rfl
  next =>
    split
    next => rfl
    next => rfl

/-- The command line changes the disk only under accepted settings, and then the run either returns
or fails while it packages. -/
theorem disk_run (arguments : List Text) (d : Disk) :
    (CommandLine.run arguments d).disk = d ∨
      ∃ given c, CommandLine.read arguments = .ok given ∧ Config.ofOptions given.options = .ok c ∧
        ∀ failure, ((generate c).perform d).result = .error failure → FailsLate c failure := by
  unfold CommandLine.run
  split
  next => exact .inl rfl
  next => exact .inl rfl
  next => exact .inl rfl
  next given read =>
    split
    next => exact .inl rfl
    next => exact .inl rfl
    next c settings =>
      rw [disk_runConfig]
      cases result : ((generate c).perform d).result with
      | ok entry =>
        refine .inr ⟨given, c, read, settings, fun other failed => ?_⟩
        cases result.symm.trans failed
      | error failure =>
        rcases disk_eq_or_failsLate result with same | late
        · exact .inl same
        · refine .inr ⟨given, c, read, settings, fun other failed => ?_⟩
          obtain rfl := Except.error.inj (result.symm.trans failed)
          exact late

/-- **Failures before packaging touch nothing.** Under any settings, a run that fails for the
language, the encoding, the bytes of the properties, a hidden key or the type name leaves the disk as
it was. So does a misused command line, which ends with status 1 and says how it is used; and no
command line changes the disk unless its settings are accepted and its run got to packaging. -/
theorem disk_of_preparatory :
    (∀ (c : Config) (d : Disk) (failure : Failure),
      ((generate c).perform d).result = .error failure → Preparatory failure →
        ((generate c).perform d).disk = d) ∧
    (∀ (arguments : List Text) (d : Disk), Misused arguments →
      (CommandLine.run arguments d).disk = d ∧ (CommandLine.run arguments d).status = .ok 1 ∧
        CommandLine.usage <:+: (CommandLine.run arguments d).messages) ∧
    ∀ (arguments : List Text) (d : Disk), (CommandLine.run arguments d).disk = d ∨
      ∃ given c, CommandLine.read arguments = .ok given ∧ Config.ofOptions given.options = .ok c ∧
        ∀ failure, ((generate c).perform d).result = .error failure → FailsLate c failure := by
  refine ⟨fun c d failure result preparatory => ?_, fun arguments d misused => ?_, disk_run⟩
  · rcases disk_eq_or_failsLate result with same | late
    · exact same
    · exact absurd preparatory late.not_preparatory
  · obtain ⟨before, after, finish⟩ := run_of_misused misused d
    rw [finish]
    exact ⟨rfl, rfl, before, after, rfl⟩

end Runs

/-- Settings for a module, with an archive in the place of an old one. -/
def replacingModule : Config where
  archive := "build/keys.zip"
  properties := "build/app.keys"
  typeName := "com.Keys"
  staging := "build"
  language := "python"
  encoding := "utf-8"

/-- A disk with an old archive and properties of which one key is hidden by the constant of its
group. -/
def hidingDisk : Disk where
  entries :=
    [(⟨false, [.ofText "build"]⟩, .directory),
      (⟨false, [.ofText "build", .ofText "app.keys"]⟩, .file (Utf8.encode "a._ROOT = 1\n")),
      (⟨false, [.ofText "build", .ofText "keys.zip"]⟩, .archive [⟨"Old.py", Archive.deflated, []⟩])]

/-- Arguments with a class name that has an empty segment. -/
def gapArguments : List Text :=
  ["-tmp", "build", "-classname", "com..Keys", "-properties", "build/app.keys", "-out",
    "build/keys.zip"].map Text.ofString

theorem disk_of_preparatory_collision :
    ((generate replacingModule).perform hidingDisk).result =
        .error (.source (.collision "a._ROOT")) ∧
      ((generate replacingModule).perform hidingDisk).disk = hidingDisk ∧
      Misused gapArguments ∧ (CommandLine.run gapArguments hidingDisk).disk = hidingDisk ∧
      (CommandLine.run gapArguments hidingDisk).status = .ok 1 := by
  obtain ⟨failing, misusing, -⟩ := disk_of_preparatory
  have result : ((generate replacingModule).perform hidingDisk).result =
      .error (.source (.collision "a._ROOT")) := by decide +kernel
  have misused : Misused gapArguments := by
    have refused : ((CommandLine.read gapArguments).toOption.map fun given =>
        Config.ofOptions given.options) =
          some (.error (.usage (.emptySegment "com..Keys"))) := by decide +kernel
    cases read : CommandLine.read gapArguments with
    | error stop => simp [read, Except.toOption] at refused
    | ok given =>
      rw [read] at refused
      exact .unset read (Option.some.inj refused)
  obtain ⟨same, status, -⟩ := misusing gapArguments hidingDisk misused
  exact ⟨result, failing _ _ _ result (.collision _), misused, same, status⟩

end DottedKeys.Generate
