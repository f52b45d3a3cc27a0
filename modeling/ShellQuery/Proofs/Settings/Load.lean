import ShellQuery.Settings.Load
/-!
# The sources of settings in turn

`outcome_withEnvironment` says what is left after the environment: a field whose variable is set
takes the value read from it, and the first value that cannot be read is the fault. The name of the
database is taken as it is, so no fault comes from that variable. Where there is none,
`outcome_withEnvironment_eq_ok_iff` gives the fields one by one. `ofOptions_eq` cuts a run in two:
what the files and the environment make of the settings, and what is done with that. It is checked,
the arguments are put in, and it is checked again.
-/

namespace ShellQuery.Settings

/-- The settings that are left, unless there was a fault. -/
def outcome : Settings × Option Fault → Except Fault Settings
  | (s, none) => .ok s
  | (_, some f) => .error f

/-- What is read from a variable, or what there is already where it is not set. -/
def fromVariable {α : Type} (environment : String → Option String) (variableName : String)
    (read : String → Except Fault α) (fallback : α) : Except Fault α :=
  match environment variableName with
  | none => .ok fallback
  | some value => read value

/-- Settings that can be used. -/
def validated (s : Settings) : Except Fault Settings :=
  s.validate.map fun _ => s

/-- The settings before the arguments are put in, not checked yet. -/
def unchecked (around : Surroundings) (path : Option String) : Except Fault Settings :=
  (fromFiles around path).bind fun s => outcome (s.withEnvironment around.environment)

/-- A result of two steps in a row comes from a result of each of them. -/
theorem bind_eq_ok_iff {ε α β : Type} {x : Except ε α} {f : α → Except ε β} {b : β} :
    x.bind f = .ok b ↔ ∃ a, x = .ok a ∧ f a = .ok b := by
  cases x with
  | error e => exact ⟨nofun, fun ⟨_, h, _⟩ => nomatch h⟩
  | ok a =>
    refine ⟨fun h => ⟨a, rfl, h⟩, ?_⟩
    rintro ⟨_, h, hf⟩
    cases h
    exact hf

@[simp] theorem map_ok {ε α β : Type} (f : α → β) (a : α) :
    (Except.ok a : Except ε α).map f = .ok (f a) :=
  rfl

/-- Two maps in a row are one. -/
theorem map_map {ε α β γ : Type} (x : Except ε α) (f : α → β) (g : β → γ) :
    (x.map f).map g = x.map (g ∘ f) := by
  cases x with
  | error _ => rfl
  | ok _ => rfl

section
variable {environment altered : String → Option String} {around : Surroundings}
  {s t : Settings}

/-- Only the variable itself is looked at. -/
theorem fromVariable_congr {α : Type} {variableName : String}
    (h : altered variableName = environment variableName)
    (read : String → Except Fault α) (fallback : α) :
    fromVariable altered variableName read fallback =
      fromVariable environment variableName read fallback := by
  rw [fromVariable, fromVariable, h]

/-! ## Overrides one after the other -/

section
variable {o : Override} {more os : List Override} {value : String} {f : Fault}

/-- A variable that is not set has no effect. -/
theorem applyOverrides_of_none (h : environment o.variableName = none) (s : Settings) :
    applyOverrides environment (o :: more) s = applyOverrides environment more s := by
  rw [applyOverrides, h]

/-- A variable that is set changes the settings that the next ones find. -/
theorem applyOverrides_of_ok (h : environment o.variableName = some value)
    (hset : o.set value s = .ok t) :
    applyOverrides environment (o :: more) s = applyOverrides environment more t := by
  rw [applyOverrides, h]
  simp only [hset]

/-- A fault in a variable is the end. -/
theorem applyOverrides_of_error (h : environment o.variableName = some value)
    (hset : o.set value s = .error f) :
    applyOverrides environment (o :: more) s = (s, some f) := by
  rw [applyOverrides, h]
  simp only [hset]

/-- Overrides look at their own variables only. -/
theorem applyOverrides_congr
    (h : ∀ o ∈ os, altered o.variableName = environment o.variableName) (s : Settings) :
    applyOverrides altered os s = applyOverrides environment os s := by
  induction os generalizing s with
  | nil => rfl
  | cons o more ih =>
    rw [List.forall_mem_cons] at h
    cases hvalue : environment o.variableName with
    | none =>
      rw [applyOverrides_of_none hvalue, applyOverrides_of_none (h.1.trans hvalue), ih h.2]
    | some value =>
      cases hset : o.set value s with
      | ok t =>
        rw [applyOverrides_of_ok hvalue hset, applyOverrides_of_ok (h.1.trans hvalue) hset, ih h.2]
      | error f =>
        rw [applyOverrides_of_error hvalue hset, applyOverrides_of_error (h.1.trans hvalue) hset]

/-- An override whose variable is set might as well have been applied before all others, if they do
not interfere with it. -/
theorem outcome_applyOverrides_of_set (o : Override) (change : Settings → Settings)
    (hmem : o ∈ os) (hnodup : (os.map Override.variableName).Nodup)
    (hvalue : environment o.variableName = some value) (hnone : altered o.variableName = none)
    (haltered : ∀ name, name ≠ o.variableName → altered name = environment name)
    (hset : ∀ s, o.set value s = .ok (change s))
    (hothers : ∀ o' ∈ os, o'.variableName ≠ o.variableName →
      ∀ value s, o'.set value (change s) = (o'.set value s).map change) (s : Settings) :
    outcome (applyOverrides environment os s) = outcome (applyOverrides altered os (change s)) := by
  induction os generalizing s with
  | nil => cases hmem
  | cons o' more ih =>
    rw [List.map_cons, List.nodup_cons] at hnodup
    rw [List.forall_mem_cons] at hothers
    rcases List.mem_cons.1 hmem with rfl | hmore
    -- Its turn: no later override has the same variable.
    · have hrest : ∀ o' ∈ more, altered o'.variableName = environment o'.variableName :=
        fun o' ho' => haltered _ fun hname => hnodup.1 (hname ▸ List.mem_map_of_mem ho')
      rw [applyOverrides_of_ok hvalue (hset s), applyOverrides_of_none hnone,
        applyOverrides_congr hrest]
    · have hname : o'.variableName ≠ o.variableName :=
        fun hname => hnodup.1 (hname ▸ List.mem_map_of_mem hmore)
      have ih := ih hmore hnodup.2 hothers.2
      have hsame := haltered _ hname
      cases hvalue' : environment o'.variableName with
      | none =>
        rw [applyOverrides_of_none hvalue', applyOverrides_of_none (hsame.trans hvalue'), ih]
      | some value' =>
        have hchange := hothers.1 hname value' s
        cases hset' : o'.set value' s with
        | ok t =>
          rw [hset'] at hchange
          rw [applyOverrides_of_ok hvalue' hset',
            applyOverrides_of_ok (hsame.trans hvalue') hchange, ih]
        | error f =>
          rw [hset'] at hchange
          rw [applyOverrides_of_error hvalue' hset',
            applyOverrides_of_error (hsame.trans hvalue') hchange, outcome, outcome]

/-- Where settings are left, each variable that is set was read without a fault. -/
theorem exists_set_eq_ok (h : outcome (applyOverrides environment os s) = .ok t) (hmem : o ∈ os)
    (hvalue : environment o.variableName = some value) : ∃ r r', o.set value r = .ok r' := by
  induction os generalizing s with
  | nil => cases hmem
  | cons o' more ih =>
    rcases List.mem_cons.1 hmem with rfl | hmore
    · cases hset : o.set value s with
      | ok r' => exact ⟨s, r', hset⟩
      | error f =>
        rw [applyOverrides_of_error hvalue hset] at h
        cases h
    · cases hvalue' : environment o'.variableName with
      | none =>
        rw [applyOverrides_of_none hvalue'] at h
        exact ih h hmore
      | some value' =>
        cases hset : o'.set value' s with
        | ok r =>
          rw [applyOverrides_of_ok hvalue' hset] at h
          exact ih h hmore
        | error f =>
          rw [applyOverrides_of_error hvalue' hset] at h
          cases h

/-- An override that reads a value and puts it into its field, and then the rest of them. -/
theorem outcome_applyOverrides_read {α : Type} {variableName : String}
    (read : String → Except Fault α) (get : Settings → α) (put : Settings → α → Settings)
    (hput : ∀ s, put s (get s) = s) :
    outcome (applyOverrides environment
      (⟨variableName, fun value s => (read value).map (put s)⟩ :: more) s) =
      (fromVariable environment variableName read (get s)).bind fun a =>
        outcome (applyOverrides environment more (put s a)) := by
  rw [applyOverrides, fromVariable]
  cases environment variableName with
  | none =>
    show outcome (applyOverrides environment more s) = outcome (applyOverrides environment more _)
    rw [hput]
  | some value =>
    simp only [Except.map]
    cases read value with
    | ok a => rfl
    | error f => rfl

/-- An override that puts a text into its field as it is, and then the rest of them. -/
theorem outcome_applyOverrides_text {variableName : String}
    (get : Settings → String) (put : Settings → String → Settings)
    (hput : ∀ s, put s (get s) = s) :
    outcome (applyOverrides environment
      (⟨variableName, fun value s => .ok (put s value)⟩ :: more) s) =
      outcome (applyOverrides environment more
        (put s ((environment variableName).getD (get s)))) := by
  rw [applyOverrides]
  cases environment variableName with
  | none =>
    show outcome (applyOverrides environment more s) = outcome (applyOverrides environment more _)
    rw [Option.getD_none, hput]
  | some value => rfl

end

/-- What the environment leaves: the values read from its variables, or the first fault in them. -/
theorem outcome_withEnvironment (environment : String → Option String) (s : Settings) :
    outcome (s.withEnvironment environment) =
      (fromVariable environment "MONGOQ_FORMAT" readFormat s.format).bind fun format =>
      (fromVariable environment "MONGOQ_READ_ONLY" (readBool "MONGOQ_READ_ONLY") s.readOnly).bind
        fun readOnly =>
      (fromVariable environment "MONGOQ_LOG_LEVEL" readLevel s.level).map fun level =>
        ⟨format, (environment "MONGOQ_DATABASE").getD s.database, readOnly, level,
          s.timestamps⟩ := by
  rw [withEnvironment, overrides, outcome_applyOverrides_read readFormat (·.format)
    (fun s format => { s with format := format }) fun _ => rfl]
  refine congrArg _ (funext fun format => ?_)
  rw [outcome_applyOverrides_text (·.database) (fun s name => { s with database := name })
      fun _ => rfl,
    outcome_applyOverrides_read (readBool "MONGOQ_READ_ONLY") (·.readOnly)
      (fun s readOnly => { s with readOnly := readOnly }) fun _ => rfl]
  refine congrArg _ (funext fun readOnly => ?_)
  rw [outcome_applyOverrides_read readLevel (·.level) (fun s level => { s with level := level })
    fun _ => rfl]
  cases fromVariable environment "MONGOQ_LOG_LEVEL" readLevel s.level with
  | error f => rfl
  | ok level => rfl

/-- **What the environment leaves**, field by field. -/
theorem outcome_withEnvironment_eq_ok_iff :
    outcome (s.withEnvironment environment) = .ok t ↔
      fromVariable environment "MONGOQ_FORMAT" readFormat s.format = .ok t.format ∧
      (environment "MONGOQ_DATABASE").getD s.database = t.database ∧
      fromVariable environment "MONGOQ_READ_ONLY" (readBool "MONGOQ_READ_ONLY") s.readOnly =
        .ok t.readOnly ∧
      fromVariable environment "MONGOQ_LOG_LEVEL" readLevel s.level = .ok t.level ∧
      s.timestamps = t.timestamps := by
  have hmap : ∀ (x : Except Fault LogLevel) (f : LogLevel → Settings),
      x.map f = x.bind fun level => .ok (f level) := by
    rintro (_ | _) f <;> rfl
  simp only [outcome_withEnvironment, hmap, bind_eq_ok_iff, Except.ok.injEq]
  refine ⟨?_, ?_⟩
  · rintro ⟨format, hformat, readOnly, hreadOnly, level, hlevel, rfl⟩
    exact ⟨hformat, rfl, hreadOnly, hlevel, rfl⟩
  · rintro ⟨hformat, hdatabase, hreadOnly, hlevel, htimestamps⟩
    exact ⟨_, hformat, _, hreadOnly, _, hlevel, by rw [hdatabase, htimestamps]⟩

/-- Files and the environment are read, and what they make of the settings is checked. -/
theorem load_eq (around : Surroundings) (path : Option String) :
    load around path = (unchecked around path).bind validated := by
  rw [load, unchecked]
  cases fromFiles around path with
  | error f => rfl
  | ok s =>
    simp only [bind, Except.bind]
    cases s.withEnvironment around.environment with
    | mk s f =>
      cases f with
      | some f => rfl
      | none => rfl

/-- A run in four steps: files and the environment, a check, the arguments, a check. -/
theorem ofOptions_eq (around : Surroundings) (o : CommandLine.Options) :
    ofOptions around o =
      (unchecked around o.configFile).bind fun s =>
        (validated s).bind fun s => (s.withOptions o).bind validated := by
  rw [ofOptions, load_eq]
  cases unchecked around o.configFile with
  | error f => rfl
  | ok s => rfl

end

end ShellQuery.Settings
