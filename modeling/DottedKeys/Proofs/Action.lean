import DottedKeys.Action

/-!
# How actions end

`Ends action w returns fails` says what holds once an action has been done in the world `w`: of the
value it returns and the world it leaves, or of the failure it ends with and that world. There is
one rule for each way in which actions are made; `Ends.returned` and `Ends.failed` carry what was
shown over to the outcome on a disk.
-/

namespace DottedKeys.Action

variable {α β : Type} {w : World}

/-- What holds when an action that starts in a world has been done. -/
def Ends (action : Action α) (w : World) (returns : α → World → Prop)
    (fails : Failure → World → Prop) : Prop :=
  match action.run.run w with
  | (.ok value, after) => returns value after
  | (.error failure, after) => fails failure after

section Rules

variable {returns : α → World → Prop} {fails : Failure → World → Prop}

theorem ends_pure {value : α} : Ends (pure value) w returns fails ↔ returns value w :=
  Iff.rfl

theorem ends_throw {failure : Failure} :
    Ends (throw failure : Action α) w returns fails ↔ fails failure w :=
  Iff.rfl

/-- A sequence ends as its second part does where the first one leads. -/
theorem ends_bind {first : Action β} {next : β → Action α} :
    Ends (first >>= next) w returns fails ↔
      Ends first w (fun value after => Ends (next value) after returns fails) fails := by
  simp only [Ends, ExceptT.run_bind, StateT.run_bind]
  rcases first.run.run w with ⟨_ | _, _⟩ <;> rfl

theorem ends_disk {returns : Disk → World → Prop} :
    Ends disk w returns fails ↔ returns w.disk w :=
  Iff.rfl

section Unit

variable {returns : Unit → World → Prop}

theorem ends_report {e : Event} :
    Ends (report e) w returns fails ↔ returns () { w with log := w.log ++ [e] } :=
  Iff.rfl

theorem ends_setDisk {d : Disk} :
    Ends (setDisk d) w returns fails ↔ returns () { w with disk := d } :=
  Iff.rfl

theorem ends_put {l : Location} {e : Entry} :
    Ends (put l e) w returns fails ↔ returns () { w with disk := w.disk.put l e } :=
  Iff.rfl

end Unit

theorem ends_ofExcept {ε : Type} {failure : ε → Failure} {computed : Except ε α} :
    Ends (ofExcept failure computed) w returns fails ↔
      (∀ value, computed = .ok value → returns value w) ∧
        ∀ fault, computed = .error fault → fails (failure fault) w := by
  cases computed with
  | ok value => simp [ofExcept, ends_pure]
  | error fault => simp [ofExcept, ends_throw]

/-- What is shown of an action may be weakened. -/
theorem Ends.mono {action : Action α} {returns' : α → World → Prop} {fails' : Failure → World → Prop}
    (h : Ends action w returns fails) (value : ∀ a after, returns a after → returns' a after)
    (failure : ∀ e after, fails e after → fails' e after) : Ends action w returns' fails' := by
  unfold Ends at h ⊢
  generalize action.run.run w = done at h
  match done, h with
  | (.ok a, after), h => exact value a after h
  | (.error e, after), h => exact failure e after h

/-- A sequence ends as its second part does wherever the first one may lead. -/
theorem Ends.bind {first : Action β} {next : β → Action α} {between : β → World → Prop}
    {stops : Failure → World → Prop} (h : Ends first w between stops)
    (then_next : ∀ b after, between b after → Ends (next b) after returns fails)
    (stopped : ∀ e after, stops e after → fails e after) :
    Ends (first >>= next) w returns fails :=
  ends_bind.2 (h.mono then_next stopped)

end Rules

section Outcomes

variable {action : Action α} {d : Disk} {returns : α → World → Prop} {fails : Failure → World → Prop}

/-- What is shown of an action holds of its outcome on a disk, if it returns. -/
theorem Ends.returned (h : Ends action ⟨d, []⟩ returns fails) {value : α}
    (result : (action.perform d).result = .ok value) :
    returns value ⟨(action.perform d).disk, (action.perform d).log⟩ := by
  unfold Ends at h
  unfold Action.perform at result ⊢
  generalize action.run.run ⟨d, []⟩ = done at h result
  match done, h with
  | (.ok a, after), h =>
    obtain rfl := Except.ok.inj result
    exact h
  | (.error e, after), h => exact nomatch result

/-- What is shown of an action holds of its outcome on a disk, if it fails. -/
theorem Ends.failed (h : Ends action ⟨d, []⟩ returns fails) {failure : Failure}
    (result : (action.perform d).result = .error failure) :
    fails failure ⟨(action.perform d).disk, (action.perform d).log⟩ := by
  unfold Ends at h
  unfold Action.perform at result ⊢
  generalize action.run.run ⟨d, []⟩ = done at h result
  match done, h with
  | (.ok a, after), h => exact nomatch result
  | (.error e, after), h =>
    obtain rfl := Except.error.inj result
    exact h

end Outcomes

end DottedKeys.Action
