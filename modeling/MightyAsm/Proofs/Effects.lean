import MightyAsm.Proofs.Arguments
import MightyAsm.Proofs.Runs

/-!
# Effects of the command line

A run of the command line changes at most one file, which is the output of assembling, and
only if it ends without an error. The directories for the output are made once there is
something to write.

* `exists_destination`: where the output is found after it has been written;
* `exists_asksFor_of_ne`: which arguments can change anything at all;
* `effects`: what any command line does to the files and directories.
-/

namespace MightyAsm

namespace Cli

variable {fs fs' : FileSystem} {buildDir name path : Text} {out : Option Text}

/-- The location of the output: where the given path leads, or one name below the build
directory. -/
def IsDestination (buildDir name : Text) (out : Option Text) (fs : FileSystem) (loc : Location) :
    Prop :=
  match out with
  | some path => fs.resolve path = .ok loc
  | none => ∃ dir stem, fs.resolve buildDir = .ok dir ∧ Path.stem? name = some stem ∧
      loc = dir ++ [stem ++ ['.', 'b', 'i', 'n']]

/-- An output that has been written is at its destination, and nothing else has changed. -/
theorem exists_destination {content : Array UInt8} (hdir : buildDir ≠ [])
    (hpath : IsOutput buildDir name out path) (hwrite : fs.writeFile path content = .ok fs') :
    ∃ loc, IsDestination buildDir name out fs' loc ∧ fs.Keeps fs' ∧ ∀ loc',
      fs'.node? loc' = if loc' = loc then some (.file content) else fs.node? loc' := by
  obtain ⟨dir, last, hnames, hresolve, hkeeps, hnode⟩ := FileSystem.exists_written hwrite
  refine ⟨dir ++ [last], ?_, hkeeps, hnode⟩
  cases hpath with
  | given => exact hresolve
  | @default stem hstem =>
      have hname : '/' ∉ stem ++ ['.', 'b', 'i', 'n'] := by
        simp [Path.not_mem_of_stem? hstem]
      obtain ⟨rfl, hbase⟩ := hnames.of_join hdir (by simp) hname
      exact ⟨dir, stem, hbase, hstem, rfl⟩

/-! ## Assembling runs -/

theorem mem_newDirs_iff :
    path ∈ newDirs buildDir out ↔ out = none ∧ path ∈ Path.ancestors buildDir := by
  cases out with
  | none => simp [newDirs]
  | some given => simp [newDirs]

namespace Assembles

variable {o : Outcome}

theorem eq_of_fault (h : Assembles buildDir name out fs o fs')
    (hsrc : ∀ src, fs.text? name = some src → ∃ d, assemble src = .error (.fault d)) :
    o.status = failureStatus ∧ fs' = fs := by
  have hno : ∀ src rom, fs.text? name = some src → assemble src ≠ .ok rom := by
    intro src rom htext hrom
    obtain ⟨d, hd⟩ := hsrc src htext
    rw [hrom] at hd
    cases hd
  cases h with
  | refused _ _ hfault => exact ⟨hfault hsrc, rfl⟩
  | unwritten htext hrom => exact absurd hrom (hno _ _ htext)
  | saved htext hrom => exact absurd hrom (hno _ _ htext)

theorem exists_of_success (h : Assembles buildDir name out fs o fs') (hdir : buildDir ≠ [])
    (hstatus : o.status = 0) :
    ∃ src rom loc, fs.text? name = some src ∧ assemble src = .ok rom ∧
      IsDestination buildDir name out fs' loc ∧ fs'.file? loc = some rom ∧
      ∀ loc', loc' ≠ loc → fs'.file? loc' = fs.file? loc' := by
  cases h with
  | refused _ hfailed => exact absurd hstatus hfailed
  | unwritten _ _ _ hfailed =>
      rw [hstatus] at hfailed
      cases hfailed
  | saved htext hsrc hdirs hpath hwrite =>
      obtain ⟨loc, hdest, -, hnode⟩ := exists_destination hdir hpath hwrite
      refine ⟨_, _, loc, htext, hsrc, hdest, ?_, ?_⟩
      · rw [FileSystem.file?, hnode, if_pos rfl]
      · intro loc' hne
        rw [FileSystem.file?, hnode, if_neg hne, ← hdirs.file?_eq loc', FileSystem.file?]

theorem addsDirs_of_failure (h : Assembles buildDir name out fs o fs')
    (hstatus : o.status = failureStatus) :
    FileSystem.AddsDirs (Path.ancestors buildDir) fs fs' := by
  cases h with
  | refused => exact .refl _ fs
  | unwritten _ _ hdirs => exact hdirs.mono fun path hpath => (mem_newDirs_iff.mp hpath).2
  | saved _ _ _ _ _ hsuccess =>
      rw [hstatus] at hsuccess
      cases hsuccess

theorem eq_of_abort (h : Assembles buildDir name out fs o fs') (hstatus : o.status = abortStatus) :
    fs' = fs := by
  cases h with
  | refused => rfl
  | unwritten _ _ _ hfailed =>
      rw [hstatus] at hfailed
      cases hfailed
  | saved _ _ _ _ _ hsuccess =>
      rw [hstatus] at hsuccess
      cases hsuccess

theorem isDir_of_isDir (h : Assembles buildDir name out fs o fs') (hdir : buildDir ≠ [])
    {loc : Location} (hloc : fs.node? loc = some .directory) :
    fs'.node? loc = some .directory := by
  cases h with
  | refused => exact hloc
  | unwritten _ _ hdirs => exact hdirs.kept loc _ hloc
  | saved _ _ hdirs hpath hwrite =>
      obtain ⟨-, -, hkeeps, -⟩ := exists_destination hdir hpath hwrite
      exact hkeeps.dirs loc (hdirs.kept loc _ hloc)

/-- A new directory is on the way to the build directory. -/
theorem exists_of_newDir (h : Assembles buildDir name out fs o fs') (hdir : buildDir ≠ [])
    {loc : Location} (hloc : fs'.node? loc = some .directory)
    (hnew : fs.node? loc ≠ some .directory) :
    (out = none ∧ ∃ src rom, fs.text? name = some src ∧ assemble src = .ok rom) ∧
      ∃ path ∈ Path.ancestors buildDir, fs'.resolve path = .ok loc := by
  cases h with
  | refused => exact absurd hloc hnew
  | unwritten htext hsrc hdirs =>
      obtain ⟨-, path, hpath, hresolve⟩ := hdirs.added loc _ hloc hnew
      obtain ⟨hout, hpath⟩ := mem_newDirs_iff.mp hpath
      exact ⟨⟨hout, _, _, htext, hsrc⟩, path, hpath, hresolve⟩
  | saved htext hsrc hdirs houtput hwrite =>
      obtain ⟨dest, -, hkeeps, hnode⟩ := exists_destination hdir houtput hwrite
      rw [hnode] at hloc
      split_ifs at hloc
      · cases hloc
      · obtain ⟨-, path, hpath, hresolve⟩ := hdirs.added loc _ hloc hnew
        obtain ⟨hout, hpath⟩ := mem_newDirs_iff.mp hpath
        exact ⟨⟨hout, _, _, htext, hsrc⟩, path, hpath,
          FileSystem.resolve_of_keeps hkeeps hresolve⟩

end Assembles

/-! ## All runs -/

/-- What a command line does to the files and directories. -/
structure Effects (args : List Text) (buildVar : Option ByteArray) (fs : FileSystem) : Prop where
  /-- Only an assembling run changes anything. -/
  idle : (∀ name out, Command.ofArgs? args ≠ some (.assemble name out)) →
    (run args buildVar fs).2 = fs
  /-- If the source cannot be read or has a fault, nothing changes. -/
  refused : ∀ name out, Command.ofArgs? args = some (.assemble name out) →
    (∀ src, fs.text? name = some src → ∃ d, assemble src = .error (.fault d)) →
    (run args buildVar fs).1.status = failureStatus ∧ (run args buildVar fs).2 = fs
  /-- If there is no error, the ROM image is at its destination and all other files are as
  before. -/
  saved : ∀ name out, Command.ofArgs? args = some (.assemble name out) →
    (run args buildVar fs).1.status = 0 →
    ∃ src rom loc, fs.text? name = some src ∧ assemble src = .ok rom ∧
      IsDestination (Environment.buildDirOf buildVar) name out (run args buildVar fs).2 loc ∧
      (run args buildVar fs).2.file? loc = some rom ∧
      ∀ loc', loc' ≠ loc → (run args buildVar fs).2.file? loc' = fs.file? loc'
  /-- If there is an error, all files are as before, and only directories on the way to the
  build directory are new. -/
  failed : (run args buildVar fs).1.status = failureStatus →
    (∀ loc, (run args buildVar fs).2.file? loc = fs.file? loc) ∧
    FileSystem.AddsDirs (Path.ancestors (Environment.buildDirOf buildVar)) fs
      (run args buildVar fs).2
  /-- If the run is given up, nothing changes. -/
  aborted : (run args buildVar fs).1.status = abortStatus → (run args buildVar fs).2 = fs
  /-- No directory goes away, and new ones need a ROM image for the build directory. -/
  directories : ∀ loc,
    (fs.node? loc = some .directory → (run args buildVar fs).2.node? loc = some .directory) ∧
    ((run args buildVar fs).2.node? loc = some .directory → fs.node? loc ≠ some .directory →
      (∃ name src rom, Command.ofArgs? args = some (.assemble name none) ∧
        fs.text? name = some src ∧ assemble src = .ok rom) ∧
      ∃ path ∈ Path.ancestors (Environment.buildDirOf buildVar),
        (run args buildVar fs).2.resolve path = .ok loc)

section Run

variable (args : List Text) (buildVar : Option ByteArray) (fs : FileSystem)

theorem assembles_run (h : Command.ofArgs? args = some (.assemble name out)) :
    Assembles (Environment.buildDirOf buildVar) name out fs (run args buildVar fs).1
      (run args buildVar fs).2 := by
  rw [run, script, h]
  exact Script.assembles_assemble _ name out fs

theorem run_snd_of_idle (h : ∀ name out, Command.ofArgs? args ≠ some (.assemble name out)) :
    (run args buildVar fs).2 = fs := by
  rw [run, script]
  cases hcommand : Command.ofArgs? args with
  | none => rfl
  | some command =>
      cases command with
      | welcome =>
          show ((Script.printAll welcomeLines .succeed).runOn fs).2 = fs
          rw [Script.runOn, Script.runFrom_printAll]
          rfl
      | version => rfl
      | help =>
          show ((Script.printAll helpLines .succeed).runOn fs).2 = fs
          rw [Script.runOn, Script.runFrom_printAll]
          rfl
      | assemble name out => exact absurd hcommand (h name out)
      | check name symbols => exact Script.runOn_check_snd name symbols fs

/-- Whatever changes, changes because the arguments ask for assembling. -/
theorem exists_asksFor_of_ne (h : (run args buildVar fs).2 ≠ fs) :
    ∃ name out, Command.AsksFor args (.assemble name out) := by
  by_contra hno
  push Not at hno
  refine h (run_snd_of_idle args buildVar fs ?_)
  intro name out hargs
  exact hno name out ((Command.ofArgs?_eq_some_iff (by simp) (by simp)).mp hargs)

/-- Files and directories change in no other way than this. -/
theorem effects : Effects args buildVar fs := by
  have hdir := Environment.buildDirOf_ne_nil buildVar
  by_cases hidle : ∀ name out, Command.ofArgs? args ≠ some (.assemble name out)
  · have hsame := run_snd_of_idle args buildVar fs hidle
    refine ⟨fun _ => hsame, ?_, ?_, ?_, fun _ => hsame, ?_⟩
    · intro name out hcommand
      exact absurd hcommand (hidle name out)
    · intro name out hcommand
      exact absurd hcommand (hidle name out)
    · rw [hsame]
      exact fun _ => ⟨fun _ => rfl, .refl _ fs⟩
    · rw [hsame]
      exact fun loc => ⟨id, fun hloc hnew => absurd hloc hnew⟩
  · push Not at hidle
    obtain ⟨name, out, hcommand⟩ := hidle
    have hrun := assembles_run args buildVar fs hcommand
    refine ⟨?_, ?_, ?_, ?_, hrun.eq_of_abort, ?_⟩
    · intro hidle
      exact absurd hcommand (hidle name out)
    · intro name' out' hcommand' hsrc
      rw [hcommand] at hcommand'
      cases hcommand'
      exact hrun.eq_of_fault hsrc
    · intro name' out' hcommand' hstatus
      rw [hcommand] at hcommand'
      cases hcommand'
      exact hrun.exists_of_success hdir hstatus
    · intro hstatus
      have hadds := hrun.addsDirs_of_failure hstatus
      exact ⟨hadds.file?_eq, hadds⟩
    · intro loc
      refine ⟨hrun.isDir_of_isDir hdir, ?_⟩
      intro hloc hnew
      obtain ⟨⟨rfl, src, rom, htext, hsrc⟩, hpath⟩ := hrun.exists_of_newDir hdir hloc hnew
      exact ⟨⟨name, src, rom, hcommand, htext, hsrc⟩, hpath⟩

end Run

/-- A file named without a subcommand is assembled into the build directory, which is made. -/
example : (run ["a.asm".toList] none
    (.ofFiles [] [("a.asm".toList, some #[0x49, 0x4E, 0x43, 0x20, 0x41])])).2.file?
      ["build".toList, "a.bin".toList] = some #[0xA0, 0x00] := by
  decide +kernel

end Cli

end MightyAsm
