import MightyAsm.Files.FileSystem
import MightyAsm.Proofs.Padding
import MightyAsm.Proofs.Resolution

/-!
# Laws of file systems

A file system only ever changes at one location at a time. Writing replaces or adds a file and
making a directory adds one, so what a path leads to is not lost by either.

* `FileSystem.walk_of_keeps`: walks are not cut off by new files and directories;
* `FileSystem.exists_written`: where a file is that has been written;
* `FileSystem.AddsDirs`: nothing has changed but that some directories are new;
* `FileSystem.addsDirs_of_makeDir`: making a directory is such a change.
-/

namespace MightyAsm

/-! ## Parts of paths -/

namespace Path

variable {path dir name stem : Text}

theorem not_mem_of_mem_parts (h : name ∈ parts path) : '/' ∉ name :=
  Text.not_mem_of_mem_splitOn (List.mem_filter.mp h).1

theorem components_subset_parts (path : Text) : components path ⊆ parts path := by
  rw [components]
  split
  · simp
  · rename_i first rest h
    rw [h]
    split
    · exact List.subset_cons_of_subset first List.filter_sublist.subset
    · exact List.cons_subset_cons first List.filter_sublist.subset

theorem withoutExtension_subset (name : Text) : withoutExtension name ⊆ name := by
  rw [withoutExtension]
  split
  · exact List.Subset.refl name
  · intro c hc
    rw [List.mem_reverse] at hc
    exact List.mem_reverse.mp (List.dropWhile_subset _ (List.mem_of_mem_drop hc))

theorem not_mem_of_stem? (h : stem? path = some stem) : '/' ∉ stem := by
  obtain ⟨name, hname, rfl⟩ := Option.map_eq_some_iff.mp h
  have hparts : name ∈ parts path := by
    rw [fileName?] at hname
    split at hname
    · rename_i last hlast
      split at hname
      · cases hname
      · cases hname
        exact components_subset_parts path (List.mem_of_getLast? hlast)
    · cases hname
  exact fun hmem => not_mem_of_mem_parts hparts (withoutExtension_subset name hmem)

theorem endsInSlash_iff : endsInSlash path = true ↔ ∃ front, path = front ++ ['/'] := by
  rw [endsInSlash, beq_iff_eq, List.getLast?_eq_some_iff]

/-- A name that is joined to a path is one part more. -/
theorem parts_join (dir : Text) (hne : name ≠ []) (hname : '/' ∉ name) :
    parts (join dir name) = parts dir ++ [name] := by
  have hpart : [name].filter (fun part => !part.isEmpty) = [name] := by simp [hne]
  rw [join]
  split
  · rename_i hslash
    obtain ⟨front, rfl⟩ := endsInSlash_iff.mp hslash
    rw [List.append_assoc, List.singleton_append, parts, parts, Text.splitOn_append,
      Text.splitOn_append, Text.splitOn_eq_singleton hname]
    simp [hne]
  · rw [parts, Text.splitOn_append, Text.splitOn_eq_singleton hname, List.filter_append, hpart]
    rfl

theorem isAbsolute_join (hdir : dir ≠ []) (name : Text) :
    isAbsolute (join dir name) = isAbsolute dir := by
  obtain ⟨c, rest, rfl⟩ := List.exists_cons_of_ne_nil hdir
  rw [join]
  split
  · rfl
  · rfl

theorem byteSize_le_join (dir name : Text) : dir.byteSize ≤ (join dir name).byteSize := by
  rw [join]
  split
  · simp
  · simp

end Path

/-! ## Locations -/

namespace FileSystem

variable {fs fs' fs'' : FileSystem} {loc dir : Location} {path name : Text}

theorem lookup_map_replace (nodes : List (Location × Node)) (loc loc' : Location) (node : Node) :
    (nodes.map fun entry => if entry.1 = loc then (loc, node) else entry).lookup loc' =
      if loc' = loc then (nodes.lookup loc).map fun _ => node else nodes.lookup loc' := by
  induction nodes with
  | nil => simp
  | cons entry nodes ih =>
      obtain ⟨spot, found⟩ := entry
      by_cases hentry : spot = loc
      · subst spot
        by_cases hloc : loc' = loc
        · simp [hloc]
        · simp [List.lookup_cons, beq_false_of_ne hloc, ih, hloc]
      · by_cases hloc : loc' = loc
        · subst loc'
          simp [List.lookup_cons, hentry, beq_false_of_ne (Ne.symm hentry), ih]
        · simp [List.lookup_cons, hentry, ih, hloc]

theorem node?_of_ne_nil (h : loc ≠ []) : fs.node? loc = fs.nodes.lookup loc := by
  cases loc with
  | nil => exact absurd rfl h
  | cons part rest => rfl

@[simp] theorem cwd_set (fs : FileSystem) (loc : Location) (node : Node) :
    (fs.set loc node).cwd = fs.cwd := by
  rw [set]
  split
  · rfl
  · rfl

theorem node?_set (fs : FileSystem) (h : loc ≠ []) (node : Node) (loc' : Location) :
    (fs.set loc node).node? loc' = if loc' = loc then some node else fs.node? loc' := by
  cases loc' with
  | nil => simp [node?, Ne.symm h]
  | cons part rest =>
      have hcons : part :: rest ≠ [] := List.cons_ne_nil part rest
      rw [node?_of_ne_nil hcons, node?_of_ne_nil hcons, set]
      split
      · rename_i hsome
        obtain ⟨old, hold⟩ := Option.isSome_iff_exists.mp hsome
        rw [lookup_map_replace, hold]
        rfl
      · rename_i hnone
        rw [Option.not_isSome_iff_eq_none] at hnone
        show (fs.nodes ++ [(loc, node)]).lookup (part :: rest) = _
        rw [List.lookup_append]
        split
        · rename_i hloc
          rw [hloc, hnone]
          simp
        · rename_i hloc
          simp [List.lookup_cons, beq_false_of_ne hloc]

theorem node?_set_self (fs : FileSystem) (h : loc ≠ []) (node : Node) :
    (fs.set loc node).node? loc = some node := by
  rw [node?_set fs h, if_pos rfl]

theorem isDirAt_iff : fs.isDirAt loc = true ↔ fs.node? loc = some .directory := by
  rw [isDirAt, beq_iff_eq]

/-- The content of the file at a location. -/
def file? (fs : FileSystem) (loc : Location) : Option (Array UInt8) :=
  match fs.node? loc with
  | some (.file content) => some content
  | _ => none

theorem file?_eq_some_iff {content : Array UInt8} :
    fs.file? loc = some content ↔ fs.node? loc = some (.file content) := by
  rw [file?]
  split
  · rename_i h
    rw [h, Option.some.injEq, Option.some.injEq, Node.file.injEq]
  · rename_i h
    constructor
    · intro hnone
      cases hnone
    · intro hfile
      exact absurd hfile (h content)

/-! ## Walks -/

theorem walk_append (fs : FileSystem) (loc : Location) (front back : List Text) :
    fs.walk loc (front ++ back) = fs.walk loc front >>= fun mid => fs.walk mid back := by
  induction front generalizing loc with
  | nil => rfl
  | cons part rest ih =>
      simp only [List.cons_append, walk]
      split_ifs
      · rfl
      · exact ih loc
      · exact ih loc.dropLast
      · rfl
      · rfl
      · exact ih (loc ++ [part])

/-- All that is in the first file system is in the second one too, and its directories are
directories there. -/
structure Keeps (fs fs' : FileSystem) : Prop where
  cwd : fs'.cwd = fs.cwd
  dirs : ∀ loc, fs.node? loc = some .directory → fs'.node? loc = some .directory
  nodes : ∀ loc, (fs.node? loc).isSome = true → (fs'.node? loc).isSome = true

theorem Keeps.isDirAt (h : fs.Keeps fs') (hloc : fs.isDirAt loc = true) :
    fs'.isDirAt loc = true :=
  isDirAt_iff.mpr (h.dirs loc (isDirAt_iff.mp hloc))

theorem Keeps.start_eq (h : fs.Keeps fs') (path : Text) : fs'.start path = fs.start path := by
  rw [start, start, h.cwd]

theorem walk_of_keeps (h : fs.Keeps fs') {loc loc' : Location} {parts : List Text}
    (hwalk : fs.walk loc parts = .ok loc') : fs'.walk loc parts = .ok loc' := by
  induction parts generalizing loc with
  | nil => exact hwalk
  | cons part rest ih =>
      rw [walk] at hwalk ⊢
      by_cases hdir : fs.isDirAt loc = true
      · simp only [hdir, h.isDirAt hdir, Bool.not_true, Bool.false_eq_true, if_false] at hwalk ⊢
        split_ifs at hwalk ⊢ with hdot hdots hlong hnew hold
        · exact ih hwalk
        · exact ih hwalk
        · have hkept := h.nodes (loc ++ [part]) (by
            rwa [Option.isNone_iff_eq_none, ← ne_eq, Option.ne_none_iff_isSome] at hold)
          simp [Option.isNone_iff_eq_none.mp hnew] at hkept
        · exact ih hwalk
      · simp [hdir] at hwalk

theorem resolve_of_keeps (h : fs.Keeps fs') (hpath : fs.resolve path = .ok loc) :
    fs'.resolve path = .ok loc := by
  rw [resolve, bind_eq_ok_iff] at hpath ⊢
  obtain ⟨u, hcheck, hwalk⟩ := hpath
  rw [h.start_eq]
  exact ⟨u, hcheck, walk_of_keeps h hwalk⟩

/-! ## Names in directories -/

/-- A path names something in a directory, which may or may not exist: all parts of the path
but the last lead to the directory. -/
structure Names (fs : FileSystem) (path : Text) (dir : Location) (name : Text) : Prop where
  checked : checkPath path = .ok ()
  proper : name ≠ Path.dot ∧ name ≠ Path.dotDot
  short : name.byteSize ≤ maxName
  isDir : fs.isDirAt dir = true
  walk : ∃ front, Path.parts path = front ++ [name] ∧ fs.walk (fs.start path) front = .ok dir

theorem Names.of_keeps (h : fs.Names path dir name) (hkeeps : fs.Keeps fs') :
    fs'.Names path dir name := by
  obtain ⟨front, hparts, hwalk⟩ := h.walk
  refine ⟨h.checked, h.proper, h.short, hkeeps.isDirAt h.isDir, front, hparts, ?_⟩
  rw [hkeeps.start_eq]
  exact walk_of_keeps hkeeps hwalk

/-- A path leads to what it names. A slash may follow if that is a directory. -/
theorem Names.resolve_eq {node : Node} (h : fs.Names path dir name)
    (hnode : fs.node? (dir ++ [name]) = some node)
    (hslash : Path.endsInSlash path = true → node = .directory) :
    fs.resolve path = .ok (dir ++ [name]) := by
  obtain ⟨front, hparts, hwalk⟩ := h.walk
  have hlast : fs.walk dir [name] = .ok (dir ++ [name]) := by
    simp [FileSystem.walk, h.isDir, h.proper, h.short, hnode]
  rw [resolve, h.checked]
  show fs.walk (fs.start path) _ = _
  rw [hparts, List.append_assoc, walk_append, hwalk]
  show fs.walk dir _ = _
  rw [walk_append, hlast]
  show fs.walk (dir ++ [name]) _ = _
  split
  · rename_i hends
    rw [hslash hends, ← isDirAt_iff] at hnode
    simp [FileSystem.walk, hnode]
  · rfl

theorem checkPath_eq_ok_iff : checkPath path = .ok () ↔ path ≠ [] ∧ path.byteSize < maxPath := by
  rw [checkPath]
  split_ifs with hempty hlong
  · simp [List.isEmpty_iff.mp hempty]
  · simp [Nat.not_lt_of_le hlong]
  · simp [Nat.lt_of_not_le hlong, mt List.isEmpty_iff.mpr hempty]

/-- What a name is joined to is the path of its directory. -/
theorem Names.of_join {base last : Text} (h : fs.Names (Path.join base last) dir name)
    (hbase : base ≠ []) (hne : last ≠ []) (hlast : '/' ∉ last) :
    name = last ∧ fs.resolve base = .ok dir := by
  obtain ⟨front, hparts, hwalk⟩ := h.walk
  rw [Path.parts_join base hne hlast] at hparts
  obtain ⟨rfl, hname⟩ := List.append_inj' hparts rfl
  cases hname
  refine ⟨rfl, ?_⟩
  have hcheck : checkPath base = .ok () := by
    have hlong := (checkPath_eq_ok_iff.mp h.checked).2
    exact checkPath_eq_ok_iff.mpr
      ⟨hbase, Nat.lt_of_le_of_lt (Path.byteSize_le_join base _) hlong⟩
  rw [start, Path.isAbsolute_join hbase] at hwalk
  rw [resolve, hcheck]
  show fs.walk (fs.start base) _ = _
  rw [walk_append, start, hwalk]
  show fs.walk dir _ = _
  split
  · simp [FileSystem.walk, h.isDir]
  · rfl

theorem names_of_resolveParent {last : Text}
    (h : fs.resolveParent path = .ok (dir, some last))
    (hproper : ¬ (last = Path.dot ∨ last = Path.dotDot)) (hshort : ¬ maxName < last.byteSize) :
    fs.Names path dir last := by
  rw [resolveParent, bind_eq_ok_iff] at h
  obtain ⟨u, hcheck, h⟩ := h
  split at h
  · cases h
  · rename_i part hpart
    obtain ⟨parent, hwalk, h⟩ := bind_eq_ok_iff.mp h
    split at h
    · rename_i hdir
      cases h
      have hsplit := List.dropLast_append_getLast? last hpart
      exact ⟨hcheck, not_or.mp hproper, Nat.le_of_not_lt hshort, hdir, _, hsplit.symm, hwalk⟩
    · cases h

/-- Writing makes or replaces a file, in a directory that is there. -/
theorem exists_of_writeFile {content : Array UInt8} (h : fs.writeFile path content = .ok fs') :
    ∃ dir name, fs.Names path dir name ∧ Path.endsInSlash path = false ∧
      fs.node? (dir ++ [name]) ≠ some .directory ∧
      fs' = fs.set (dir ++ [name]) (.file content) := by
  rw [writeFile, bind_eq_ok_iff] at h
  obtain ⟨⟨dir, last?⟩, hparent, h⟩ := h
  cases last? with
  | none => cases h
  | some name =>
      dsimp only at h
      split_ifs at h with hproper hshort hdir
      cases h
      rw [← or_assoc, not_or] at hproper
      refine ⟨dir, name, names_of_resolveParent hparent hproper.1 hshort, ?_, ?_, rfl⟩
      · exact Bool.eq_false_of_not_eq_true hproper.2
      · exact fun hnode => hdir (isDirAt_iff.mpr hnode)

/-- Making a directory adds one where nothing is yet, in a directory that is there. -/
theorem exists_of_makeDir (h : fs.makeDir path = .ok fs') :
    ∃ dir name, fs.Names path dir name ∧ fs.node? (dir ++ [name]) = none ∧
      fs' = fs.set (dir ++ [name]) .directory := by
  rw [makeDir, bind_eq_ok_iff] at h
  obtain ⟨⟨dir, last?⟩, hparent, h⟩ := h
  cases last? with
  | none => cases h
  | some name =>
      dsimp only at h
      split_ifs at h with hproper hshort hnode
      cases h
      refine ⟨dir, name, names_of_resolveParent hparent hproper hshort, ?_, rfl⟩
      simpa using hnode

/-- Nothing is lost if a node is set where no directory is, or if it is a directory. -/
theorem keeps_set {node : Node} (h : loc ≠ [])
    (hloc : fs.node? loc = some .directory → node = .directory) : fs.Keeps (fs.set loc node) := by
  refine ⟨cwd_set fs loc node, ?_, ?_⟩
  · intro loc' hdir
    rw [node?_set fs h]
    split
    · rename_i heq
      rw [hloc (heq ▸ hdir)]
    · exact hdir
  · intro loc' hsome
    rw [node?_set fs h]
    split
    · rfl
    · exact hsome

/-- A file that has been written is where its path leads, and nothing else has changed. -/
theorem exists_written {content : Array UInt8} (h : fs.writeFile path content = .ok fs') :
    ∃ dir name, fs'.Names path dir name ∧ fs'.resolve path = .ok (dir ++ [name]) ∧
      fs.Keeps fs' ∧ ∀ loc,
        fs'.node? loc = if loc = dir ++ [name] then some (.file content) else fs.node? loc := by
  obtain ⟨dir, name, hnames, hslash, hdir, rfl⟩ := exists_of_writeFile h
  have hloc : dir ++ [name] ≠ [] := by simp
  have hkeeps : fs.Keeps (fs.set (dir ++ [name]) (.file content)) :=
    keeps_set hloc fun hnode => absurd hnode hdir
  have hnames' := hnames.of_keeps hkeeps
  refine ⟨dir, name, hnames', hnames'.resolve_eq (node?_set_self fs hloc _) ?_, hkeeps,
    node?_set fs hloc _⟩
  intro hends
  rw [hslash] at hends
  cases hends

/-! ## New directories -/

/-- Nothing has changed but that there are some new directories, which these paths name. -/
structure AddsDirs (paths : List Text) (fs fs' : FileSystem) : Prop where
  cwd : fs'.cwd = fs.cwd
  kept : ∀ loc node, fs.node? loc = some node → fs'.node? loc = some node
  added : ∀ loc node, fs'.node? loc = some node → fs.node? loc ≠ some node →
    node = .directory ∧ ∃ path ∈ paths, fs'.resolve path = .ok loc

namespace AddsDirs

variable {paths more : List Text}

theorem refl (paths : List Text) (fs : FileSystem) : AddsDirs paths fs fs :=
  ⟨rfl, fun _ _ h => h, fun _ _ h hnew => absurd h hnew⟩

theorem keeps (h : AddsDirs paths fs fs') : fs.Keeps fs' := by
  refine ⟨h.cwd, fun loc => h.kept loc .directory, ?_⟩
  intro loc hsome
  obtain ⟨node, hnode⟩ := Option.isSome_iff_exists.mp hsome
  rw [h.kept loc node hnode]
  rfl

theorem trans (h : AddsDirs paths fs fs') (h' : AddsDirs paths fs' fs'') :
    AddsDirs paths fs fs'' := by
  refine ⟨h'.cwd.trans h.cwd, fun loc node hnode => h'.kept loc node (h.kept loc node hnode), ?_⟩
  intro loc node hnode hnew
  by_cases hmid : fs'.node? loc = some node
  · obtain ⟨hdir, path, hpath, hloc⟩ := h.added loc node hmid hnew
    exact ⟨hdir, path, hpath, resolve_of_keeps h'.keeps hloc⟩
  · exact h'.added loc node hnode hmid

theorem mono (h : AddsDirs paths fs fs') (hsub : paths ⊆ more) : AddsDirs more fs fs' := by
  refine ⟨h.cwd, h.kept, ?_⟩
  intro loc node hnode hnew
  obtain ⟨hdir, path, hpath, hloc⟩ := h.added loc node hnode hnew
  exact ⟨hdir, path, hsub hpath, hloc⟩

theorem file?_eq (h : AddsDirs paths fs fs') (loc : Location) : fs'.file? loc = fs.file? loc := by
  apply Option.ext
  intro content
  rw [file?_eq_some_iff, file?_eq_some_iff]
  constructor
  · intro hnode
    by_contra hnew
    cases (h.added loc _ hnode hnew).1
  · exact h.kept loc _

end AddsDirs

theorem addsDirs_of_makeDir (h : fs.makeDir path = .ok fs') : AddsDirs [path] fs fs' := by
  obtain ⟨dir, name, hnames, hnone, rfl⟩ := exists_of_makeDir h
  have hloc : dir ++ [name] ≠ [] := by simp
  have hkeeps : fs.Keeps (fs.set (dir ++ [name]) .directory) := keeps_set hloc fun _ => rfl
  refine ⟨hkeeps.cwd, ?_, ?_⟩
  · intro loc node hnode
    rw [node?_set fs hloc, if_neg, hnode]
    rintro rfl
    rw [hnone] at hnode
    cases hnode
  · intro loc node hnode hnew
    rw [node?_set fs hloc] at hnode
    split_ifs at hnode with heq
    · cases hnode
      refine ⟨rfl, path, List.mem_singleton_self path, ?_⟩
      rw [heq]
      exact (hnames.of_keeps hkeeps).resolve_eq (node?_set_self fs hloc _) fun _ => rfl
    · exact absurd hnode hnew

end FileSystem

end MightyAsm
