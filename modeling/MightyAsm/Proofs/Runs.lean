import MightyAsm.Cli.Run
import MightyAsm.Proofs.Encoding
import MightyAsm.Proofs.Files

/-!
# What runs do

Assembling and checking begin in the same way: the source is read and assembled, and the run
ends there if this fails. Only an assembling run goes on to make directories and to write.

* `exists_start`: where the build directory of a run comes from;
* `Script.exists_refusal`: the common beginning, if it fails;
* `Script.goesOn_makeFirstDir`: making directories changes nothing else;
* `Script.assembles_assemble`: how an assembling run can end, and what it has changed.
-/

namespace MightyAsm

/-- The text of the file that a path names, if it can be read as a text in UTF-8. -/
def FileSystem.text? (fs : FileSystem) (path : Text) : Option Text :=
  match fs.readFile path with
  | .ok content => (String.fromUTF8? ⟨content⟩).map String.toList
  | .error _ => none

namespace Cli

/-- What is printed for several lines. -/
def printed (lines : List String) : String :=
  String.join (lines.map (· ++ "\n"))

variable {fs fs' : FileSystem} {name buildDir src : Text} {out : Option Text}

/-- A run can start its environment, and its build directory is the one that the environment
gives from then on. -/
theorem exists_start (buildVar : Option ByteArray) :
    ∃ env buildDir, Environment.start {} buildVar = .ok env ∧ env.buildDir = .ok buildDir ∧
      ∀ args, script args buildVar =
        match Command.ofArgs? args with
        | some command => command.script buildDir
        | none => .exit usageStatus none := by
  have hstart : Environment.start {} buildVar = .ok ⟨some (Environment.buildDirOf buildVar)⟩ :=
    Environment.start_eq_ok_iff.mpr ⟨rfl, rfl⟩
  exact ⟨_, _, hstart, Environment.buildDir_of_start hstart, fun args => rfl⟩

namespace Script

/-! ## Reading and assembling a source -/

theorem runFrom_readSource (h : fs.text? name = some src) (stdout : String)
    (next : Text → Script) :
    (readSource name next).runFrom stdout fs = (next src).runFrom stdout fs := by
  rw [readSource, runFrom]
  rw [FileSystem.text?] at h
  split at h
  · rename_i content hread
    obtain ⟨text, htext, rfl⟩ := Option.map_eq_some_iff.mp h
    simp only [hread, htext]
  · cases h

theorem exists_runFrom_readSource (h : fs.text? name = none) :
    ∃ message, ∀ stdout next,
      (readSource name next).runFrom stdout fs = (⟨failureStatus, stdout, some message⟩, fs) := by
  rw [FileSystem.text?] at h
  cases hread : fs.readFile name with
  | error e =>
      refine ⟨readSource.failure name e.message, fun stdout next => ?_⟩
      rw [readSource, runFrom, hread]
      rfl
  | ok content =>
      rw [hread] at h
      refine ⟨readSource.failure name "stream did not contain valid UTF-8", fun stdout next => ?_⟩
      rw [readSource, runFrom, hread]
      simp only [Option.map_eq_none_iff.mp h]
      rfl

theorem build_of_rom {p : Program} {rom : Array UInt8} (hp : Program.ofSource src = .ok p)
    (hrom : p.rom = .ok rom) (next : Program → Array UInt8 → Script) :
    build src next = next p rom := by
  simp only [build, hp, hrom]

theorem build_of_fault {d : Diagnostic} (h : MightyAsm.assemble src = .error (.fault d))
    (next : Program → Array UInt8 → Script) : build src next = fail d.message := by
  rcases assemble_eq_fault_iff.mp h with hp | ⟨p, hp, hrom⟩
  · simp only [build, hp]
  · simp only [build, hp, hrom]

theorem build_of_inconsistent {e : RomError} (h : MightyAsm.assemble src = .error e)
    (he : ∀ d, e ≠ .fault d) (next : Program → Array UInt8 → Script) :
    build src next = .exit abortStatus none := by
  rw [MightyAsm.assemble] at h
  split at h
  · rename_i p hp
    cases e with
    | fault d => exact absurd rfl (he d)
    | outOfStep line => simp only [build, hp, h]
    | overflow => simp only [build, hp, h]
  · cases h
    exact absurd rfl (he _)

/-- Without a ROM image a run ends here, in the same way whatever would come next. -/
theorem exists_refusal
    (h : ∀ src rom, fs.text? name = some src → MightyAsm.assemble src ≠ .ok rom) :
    ∃ status message, status ≠ 0 ∧
      ((∀ src, fs.text? name = some src → ∃ d, MightyAsm.assemble src = .error (.fault d)) →
        status = failureStatus) ∧
      ∀ stdout next, (readSource name fun src => build src next).runFrom stdout fs =
        (⟨status, stdout, message⟩, fs) := by
  cases htext : fs.text? name with
  | none =>
      obtain ⟨message, hrun⟩ := exists_runFrom_readSource htext
      exact ⟨failureStatus, some message, by decide, fun _ => rfl, fun stdout next => hrun stdout _⟩
  | some src =>
      cases hsrc : MightyAsm.assemble src with
      | ok rom => exact absurd hsrc (h src rom htext)
      | error e =>
          by_cases he : ∃ d, e = .fault d
          · obtain ⟨d, rfl⟩ := he
            refine ⟨failureStatus, some d.message, by decide, fun _ => rfl, fun stdout next => ?_⟩
            rw [runFrom_readSource htext, build_of_fault hsrc]
            rfl
          · refine ⟨abortStatus, none, by decide, ?_, fun stdout next => ?_⟩
            · intro hfault
              obtain ⟨d, hd⟩ := hfault src rfl
              rw [hsrc] at hd
              exact absurd ⟨d, Except.error.inj hd⟩ he
            · rw [runFrom_readSource htext, build_of_inconsistent hsrc fun d hd => he ⟨d, hd⟩]
              rfl

/-! ## Printing -/

theorem runFrom_printAll (lines : List String) (next : Script) (stdout : String)
    (fs : FileSystem) :
    (printAll lines next).runFrom stdout fs = next.runFrom (stdout ++ printed lines) fs := by
  induction lines generalizing stdout with
  | nil => simp [printAll, printed]
  | cons line lines ih =>
      rw [printAll, List.foldr_cons, runFrom, ← printAll, ih]
      simp [printed, String.append_assoc]

/-! ## Making directories -/

/-- A run that has made some of these directories and goes on with the result. -/
def GoesOn (paths : List Text) (next : Except OsError Unit → Script) (stdout : String)
    (fs : FileSystem) (script : Script) : Prop :=
  ∃ fs' r, script.runFrom stdout fs = (next r).runFrom stdout fs' ∧
    FileSystem.AddsDirs paths fs fs'

theorem GoesOn.of_runFrom {paths : List Text} {next : Except OsError Unit → Script}
    {stdout : String} {script script' : Script}
    (hrun : script.runFrom stdout fs = script'.runFrom stdout fs')
    (hadds : FileSystem.AddsDirs paths fs fs') (h : GoesOn paths next stdout fs' script') :
    GoesOn paths next stdout fs script := by
  obtain ⟨fs'', r, hrun', hadds'⟩ := h
  exact ⟨fs'', r, hrun.trans hrun', hadds.trans hadds'⟩

theorem goesOn_acceptDir (paths : List Text) (path : Text) (e : OsError)
    (next : Except OsError Unit → Script) (stdout : String) (fs : FileSystem) :
    GoesOn paths next stdout fs (acceptDir path e next) :=
  ⟨fs, if fs.isDir path then .ok () else .error e, rfl, .refl paths fs⟩

theorem goesOn_makeDir {paths : List Text} {path : Text} (hpath : path ∈ paths)
    {next handle : Except OsError Unit → Script} {stdout : String} {fs : FileSystem}
    (hok : handle (.ok ()) = next (.ok ()))
    (herror : ∀ e, fs.makeDir path = .error e → GoesOn paths next stdout fs (handle (.error e))) :
    GoesOn paths next stdout fs (.makeDir path handle) := by
  unfold GoesOn
  rw [runFrom]
  cases hmake : fs.makeDir path with
  | ok fs' =>
      refine ⟨fs', .ok (), by rw [hok], (FileSystem.addsDirs_of_makeDir hmake).mono ?_⟩
      simp [hpath]
  | error e => exact herror e hmake

/-- Making directories adds some of them, whether or not all can be made. -/
theorem goesOn_makeFirstDir (next : Except OsError Unit → Script) (paths : List Text)
    (stdout : String) (fs : FileSystem) :
    GoesOn paths next stdout fs (makeFirstDir next paths) := by
  induction paths generalizing next fs with
  | nil => exact ⟨fs, .ok (), rfl, .refl [] fs⟩
  | cons path above ih =>
      have habove : above ⊆ path :: above := List.subset_cons_self path above
      rw [makeFirstDir]
      refine goesOn_makeDir List.mem_cons_self rfl fun e _ => ?_
      cases e with
      | notFound =>
          -- Those above are made first; then the directory is tried once more.
          obtain ⟨fs', r, hrun, hadds⟩ := ih _ fs
          refine .of_runFrom hrun (hadds.mono habove) ?_
          cases r with
          | error e => exact ⟨fs', .error e, rfl, .refl _ fs'⟩
          | ok u =>
              exact goesOn_makeDir List.mem_cons_self rfl fun e _ =>
                goesOn_acceptDir (path :: above) path e next stdout fs'
      | alreadyExists => exact goesOn_acceptDir _ path _ next stdout fs
      | notDirectory => exact goesOn_acceptDir _ path _ next stdout fs
      | isDirectory => exact goesOn_acceptDir _ path _ next stdout fs
      | nameTooLong => exact goesOn_acceptDir _ path _ next stdout fs
      | other code text => exact goesOn_acceptDir _ path _ next stdout fs

end Script

/-! ## Checking -/

namespace Script

/-- What a check of a source without faults prints. -/
theorem runOn_check_of_rom {p : Program} {rom : Array UInt8} (htext : fs.text? name = some src)
    (hp : Program.ofSource src = .ok p) (hrom : p.rom = .ok rom) (symbols : Bool) :
    (check name symbols).runOn fs =
      (⟨0, printed (fileLine "Checking" name ::
        ((if symbols then symbolLines p.symbols else []) ++ [successLine rom.size])), none⟩,
        fs) := by
  rw [runOn, check, runFrom, runFrom_readSource htext, build_of_rom hp hrom, runFrom_printAll]
  simp [succeed, runFrom, printed, String.append_assoc]

/-- A check changes nothing. -/
theorem runOn_check_snd (name : Text) (symbols : Bool) (fs : FileSystem) :
    ((check name symbols).runOn fs).2 = fs := by
  by_cases h : ∀ src rom, fs.text? name = some src → MightyAsm.assemble src ≠ .ok rom
  · obtain ⟨status, message, -, -, hrun⟩ := exists_refusal h
    rw [runOn, check, runFrom, hrun]
  · push Not at h
    obtain ⟨src, rom, htext, hsrc⟩ := h
    obtain ⟨p, hp, hrom⟩ := assemble_eq_ok_iff.mp hsrc
    rw [runOn_check_of_rom htext hp hrom]

end Script

/-! ## Assembling -/

/-- The directories that an assembling run may make. -/
def newDirs (buildDir : Text) : Option Text → List Text
  | some _ => []
  | none => Path.ancestors buildDir

/-- The path of the output is the given one, or that of a file in the build directory. -/
inductive IsOutput (buildDir name : Text) : Option Text → Text → Prop where
  | given (path : Text) : IsOutput buildDir name (some path) path
  | default {stem : Text} (h : Path.stem? name = some stem) :
      IsOutput buildDir name none (Path.join buildDir (stem ++ ['.', 'b', 'i', 'n']))

/-- How an assembling run can end: its outcome and the file system that it leaves. -/
inductive Assembles (buildDir name : Text) (out : Option Text) (fs : FileSystem) :
    Outcome → FileSystem → Prop where
  /-- There is no ROM image. -/
  | refused {o : Outcome}
      (hsrc : ∀ src rom, fs.text? name = some src → assemble src ≠ .ok rom)
      (hstatus : o.status ≠ 0)
      (hfault : (∀ src, fs.text? name = some src → ∃ d, assemble src = .error (.fault d)) →
        o.status = failureStatus) : Assembles buildDir name out fs o fs
  /-- There is a ROM image, but it cannot be written. -/
  | unwritten {o : Outcome} {fs' : FileSystem} {src : Text} {rom : Array UInt8}
      (htext : fs.text? name = some src) (hsrc : assemble src = .ok rom)
      (hdirs : FileSystem.AddsDirs (newDirs buildDir out) fs fs')
      (hstatus : o.status = failureStatus) : Assembles buildDir name out fs o fs'
  /-- The ROM image has been written. -/
  | saved {o : Outcome} {fs' fs'' : FileSystem} {src path : Text} {rom : Array UInt8}
      (htext : fs.text? name = some src) (hsrc : assemble src = .ok rom)
      (hdirs : FileSystem.AddsDirs (newDirs buildDir out) fs fs')
      (hpath : IsOutput buildDir name out path) (hwrite : fs'.writeFile path rom = .ok fs'')
      (hstatus : o.status = 0) : Assembles buildDir name out fs o fs''

namespace Script

/-- Choosing the output ends the run or goes on with a path. -/
theorem runFrom_chooseOut (buildDir name : Text) (out : Option Text) (next : Text → Script)
    (stdout : String) (fs : FileSystem) :
    ∃ fs', FileSystem.AddsDirs (newDirs buildDir out) fs fs' ∧
      ((∃ message, (chooseOut buildDir name out next).runFrom stdout fs =
          (⟨failureStatus, stdout, some message⟩, fs')) ∨
        ∃ path, IsOutput buildDir name out path ∧
          (chooseOut buildDir name out next).runFrom stdout fs =
            (next path).runFrom stdout fs') := by
  cases out with
  | some path => exact ⟨fs, .refl _ fs, Or.inr ⟨path, .given path, rfl⟩⟩
  | none =>
      obtain ⟨fs', r, hrun, hadds⟩ :=
        goesOn_makeFirstDir _ (Path.ancestors buildDir) stdout fs
      refine ⟨fs', hadds, ?_⟩
      rw [chooseOut, makeDirs, hrun]
      cases r with
      | error e => exact Or.inl ⟨e.message, rfl⟩
      | ok u =>
          cases hstem : Path.stem? name with
          | none => exact Or.inl ⟨_, rfl⟩
          | some stem => exact Or.inr ⟨_, .default hstem, rfl⟩

/-- What an assembling run does to the files. -/
theorem assembles_assemble (buildDir name : Text) (out : Option Text) (fs : FileSystem) :
    Assembles buildDir name out fs ((Script.assemble buildDir name out).runOn fs).1
      ((Script.assemble buildDir name out).runOn fs).2 := by
  rw [runOn, Script.assemble, runFrom]
  by_cases h : ∀ src rom, fs.text? name = some src → MightyAsm.assemble src ≠ .ok rom
  · obtain ⟨status, message, hstatus, hfault, hrun⟩ := exists_refusal h
    rw [hrun]
    exact .refused h hstatus hfault
  · push Not at h
    obtain ⟨src, rom, htext, hsrc⟩ := h
    obtain ⟨p, hp, hrom⟩ := assemble_eq_ok_iff.mp hsrc
    rw [runFrom_readSource htext, build_of_rom hp hrom, runFrom]
    obtain ⟨fs', hadds, ⟨message, hrun⟩ | ⟨path, hpath, hrun⟩⟩ :=
      runFrom_chooseOut buildDir name out _ _ fs
    · rw [hrun]
      exact .unwritten htext hsrc hadds rfl
    · rw [hrun, runFrom]
      cases hwrite : fs'.writeFile path rom with
      | error e => exact .unwritten htext hsrc hadds rfl
      | ok fs'' => exact .saved htext hsrc hadds hpath hwrite rfl

end Script

end Cli

end MightyAsm
