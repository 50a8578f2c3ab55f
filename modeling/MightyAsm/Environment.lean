import MightyAsm.Text.Basic

/-!
# The environment of a run

The directory for default output files is taken from an environment variable once, at the
start of a run. Taking it a second time, or asking for it before, is an error and changes
nothing.

* `Environment.buildDir_of_start`: after the start the environment gives the directory;
* `Environment.start_of_start`: there is no second start;
* `Environment.buildDir_eq_error_iff`: before the start it gives none.
-/

namespace MightyAsm

/-- The directory for default output files, once it is known. -/
structure Environment where
  buildDir? : Option Text := none
deriving DecidableEq, Repr, Inhabited

/-- A use of the environment at the wrong time. -/
inductive EnvironmentError where
  | alreadyInitialized
  | notInitialized
deriving DecidableEq, Repr

/-- The message for a use at the wrong time. -/
def EnvironmentError.message : EnvironmentError → String
  | .alreadyInitialized => "tried to initialize environment state multiple times"
  | .notInitialized => "tried to access environment state before initialization"

namespace Environment

/-- The name of the variable that gives the directory. -/
def buildDirVariable : String :=
  "MCASM_BUILD_DIR"

/-- The directory that is used if the variable gives none. -/
def defaultBuildDir : Text :=
  ['b', 'u', 'i', 'l', 'd']

/-- The directory that a value of the variable gives. A variable that is not set, is empty or
is no text in UTF-8 gives none. -/
def buildDirOf (value : Option ByteArray) : Text :=
  match value.bind String.fromUTF8? with
  | some dir => if dir.isEmpty then defaultBuildDir else dir.toList
  | none => defaultBuildDir

/-- Takes the directory from the value of the variable. -/
def start (env : Environment) (value : Option ByteArray) :
    Except EnvironmentError Environment :=
  match env.buildDir? with
  | some _ => .error .alreadyInitialized
  | none => .ok ⟨some (buildDirOf value)⟩

/-- The directory for default output files. -/
def buildDir (env : Environment) : Except EnvironmentError Text :=
  match env.buildDir? with
  | some dir => .ok dir
  | none => .error .notInitialized

/-! ## Use at the right time -/

theorem buildDirOf_ne_nil (value : Option ByteArray) : buildDirOf value ≠ [] := by
  have hdefault : defaultBuildDir ≠ [] := by simp [defaultBuildDir]
  rw [buildDirOf]
  split
  · rename_i dir hdir
    split
    · exact hdefault
    · rename_i hempty
      simpa using hempty
  · exact hdefault

variable {env env' : Environment} {value : Option ByteArray}

theorem start_eq_ok_iff :
    env.start value = .ok env' ↔ env.buildDir? = none ∧ env' = ⟨some (buildDirOf value)⟩ := by
  rw [start]
  cases env.buildDir? with
  | none => simp [eq_comm]
  | some dir => simp

theorem buildDir_of_start (h : env.start value = .ok env') :
    env'.buildDir = .ok (buildDirOf value) := by
  obtain ⟨-, rfl⟩ := start_eq_ok_iff.mp h
  rfl

theorem start_of_start (h : env.start value = .ok env') (value' : Option ByteArray) :
    env'.start value' = .error .alreadyInitialized := by
  obtain ⟨-, rfl⟩ := start_eq_ok_iff.mp h
  rfl

/-- The directory is unknown exactly as long as the environment can be started. -/
theorem buildDir_eq_error_iff {e : EnvironmentError} :
    env.buildDir = .error e ↔ e = .notInitialized ∧ ∃ env', env.start value = .ok env' := by
  rw [buildDir]
  simp only [start_eq_ok_iff]
  cases env.buildDir? with
  | none => simp [eq_comm]
  | some dir => simp

end Environment

end MightyAsm
