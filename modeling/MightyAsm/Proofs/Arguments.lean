import MightyAsm.Cli.Command
import MightyAsm.Proofs.Padding

/-!
# Which arguments ask for which command

A command line gives a subcommand, the name of a file and perhaps an option, in almost any
order. `Command.AsksFor` says which arguments ask for what, without reading them from left to
right. The readers of the three command lines differ only in their options, so they are
described by one relation, `Command.Gives`, and one property, `Command.ReadsInTurn`.

* `Argument.ofText_eq_iff`: the form of an argument and how it is written determine each other;
* `Command.ReadsInTurn.eq_finish`, `Command.ReadsInTurn.exists_gives`: a reader finds what the
  arguments give, and nothing else;
* `Command.ofArgs?_eq_some_iff`: the arguments that ask for greeting, assembling or checking;
* `Command.ofArgs?_eq_welcome_iff`, `Command.ofArgs?_path`, `Command.ofArgs?_assemble`,
  `Command.ofArgs?_assemble_out`, `Command.ofArgs?_check`, `Command.ofArgs?_check_symbols`: the
  usual command lines.
-/

namespace MightyAsm

theorem Text.eq_toList_of_ofList {t : Text} {s : String} (h : String.ofList t = s) :
    t = s.toList := by
  rw [← h, String.toList_ofList]

namespace Cli

/-! ## Forms of arguments -/

namespace Argument

/-- How an argument is written. -/
def text : Argument → Text
  | .endOfOptions => ['-', '-']
  | .long name none => '-' :: '-' :: name
  | .long name (some value) => '-' :: '-' :: (name ++ '=' :: value)
  | .short letters => '-' :: letters
  | .word text => text

/-- What keeps an argument of one form from being taken for one of another. -/
def IsForm : Argument → Prop
  | .endOfOptions => True
  | .long name none => name ≠ [] ∧ ∀ c ∈ name, c ≠ '='
  | .long name (some _) => ∀ c ∈ name, c ≠ '='
  | .short letters => letters ≠ [] ∧ letters.head? ≠ some '-'
  | .word text => text.head? = some '-' → text = ['-']

theorem text_ofText (arg : Text) : (ofText arg).text = arg := by
  unfold ofText
  split
  · rfl
  · split
    · rfl
    · rename_i hcut
      rw [text, ← (Text.dropWhile_ne_eq_cons hcut).2]
  · rfl
  · rfl

theorem isForm_ofText (arg : Text) : (ofText arg).IsForm := by
  unfold ofText
  split
  · trivial
  · rename_i option hoption
    split
    · rename_i hcut
      exact ⟨fun hnil => hoption (by simp [hnil]), by simpa using hcut⟩
    · intro c hc
      simpa using List.mem_takeWhile_imp hc
  · rename_i letter letters _ hletter
    refine ⟨by simp, ?_⟩
    simpa using hletter
  · rename_i _ _ hlone
    intro hhead
    cases arg with
    | nil => cases hhead
    | cons c rest =>
        obtain rfl : c = '-' := by simpa using hhead
        cases rest with
        | nil => rfl
        | cons letter letters => exact absurd rfl (hlone letter letters)

theorem ofText_long (name : Text) (h : ∀ c ∈ name, c ≠ '=') (value : Text) :
    ofText ('-' :: '-' :: (name ++ '=' :: value)) = .long name (some value) := by
  obtain ⟨hfront, hrest⟩ :=
    @Text.span_append (· != '=') name ('=' :: value) (by simpa using h) (by simp)
  rw [ofText, hfront, hrest]
  simp

theorem ofText_text {a : Argument} (h : a.IsForm) : ofText a.text = a := by
  cases a with
  | endOfOptions => rfl
  | long name value =>
      cases value with
      | none =>
          obtain ⟨hne, hno⟩ := h
          have hcut : name.dropWhile (· != '=') = [] := by simpa using hno
          cases name with
          | nil => exact absurd rfl hne
          | cons c name => simp only [text, ofText, hcut]
      | some value => exact ofText_long name h value
  | short letters =>
      obtain ⟨hne, hhead⟩ := h
      cases letters with
      | nil => exact absurd rfl hne
      | cons letter letters =>
          have hletter : letter ≠ '-' := by simpa using hhead
          simp [text, ofText, hletter]
  | word text =>
      rw [Argument.text]
      cases text with
      | nil => rfl
      | cons c rest =>
          by_cases hc : c = '-'
          · subst hc
            rw [h rfl]
            rfl
          · simp [ofText, hc]

/-- The form of an argument is the one that is written like it. -/
theorem ofText_eq_iff {arg : Text} {a : Argument} : ofText arg = a ↔ a.IsForm ∧ a.text = arg := by
  constructor
  · rintro rfl
    exact ⟨isForm_ofText arg, text_ofText arg⟩
  · rintro ⟨hform, rfl⟩
    exact ofText_text hform

theorem ofText_eq_word_iff {arg word : Text} :
    ofText arg = .word word ↔ (arg.head? = some '-' → arg = ['-']) ∧ word = arg := by
  rw [ofText_eq_iff]
  constructor
  · rintro ⟨hform, rfl⟩
    exact ⟨hform, rfl⟩
  · rintro ⟨hform, rfl⟩
    exact ⟨hform, rfl⟩

/-- A value is not empty and does not start with a dash, unless it is a single dash. -/
theorem isValue_iff {arg : Text} :
    isValue arg = true ↔ arg ≠ [] ∧ (arg.head? = some '-' → arg = ['-']) := by
  rw [isValue]
  constructor
  · intro h
    split at h
    · rename_i word hform
      obtain ⟨hdash, rfl⟩ := ofText_eq_word_iff.mp hform
      exact ⟨by simpa using h, hdash⟩
    · cases h
  · rintro ⟨hne, hdash⟩
    rw [ofText_eq_word_iff.mpr ⟨hdash, rfl⟩]
    simpa using hne

theorem ofText_of_isValue {arg : Text} (h : isValue arg = true) : ofText arg = .word arg :=
  ofText_eq_word_iff.mpr ⟨(isValue_iff.mp h).2, rfl⟩

end Argument

/-! ## Names and options -/

variable {α : Type}

/-- Two places of which at most one gives something, and what they give together. -/
inductive Joins : Option α → Option α → Option α → Prop where
  | second (given : Option α) : Joins none given given
  | first (value : α) : Joins (some value) none (some value)

@[simp] theorem joins_none_left_iff {given all : Option α} :
    Joins none given all ↔ given = all := by
  constructor
  · rintro ⟨⟩
    rfl
  · rintro rfl
    exact .second given

@[simp] theorem joins_some_left_iff {value : α} {given all : Option α} :
    Joins (some value) given all ↔ given = none ∧ all = some value := by
  constructor
  · rintro ⟨⟩
    exact ⟨rfl, rfl⟩
  · rintro ⟨rfl, rfl⟩
    exact .first value

@[simp] theorem joins_none_right_iff {given all : Option α} :
    Joins given none all ↔ given = all := by
  cases given <;> simp [eq_comm]

namespace Command

/-- Arguments that give a name and an option, each at most once and in any order. A name after
the mark that ends the options may look like an option. -/
inductive Gives (IsName : Text → Prop) (IsOption : α → List Text → Prop) :
    Option Text → Option α → List Text → Prop where
  | nothing : Gives IsName IsOption none none []
  | ended : Gives IsName IsOption none none ["--".toList]
  | endedName {word : Text} (h : word ≠ []) :
      Gives IsName IsOption (some word) none ["--".toList, word]
  | name {word : Text} {option : Option α} {rest : List Text} (h : IsName word)
      (hrest : Gives IsName IsOption none option rest) :
      Gives IsName IsOption (some word) option (word :: rest)
  | option {name : Option Text} {value : α} {given rest : List Text} (h : IsOption value given)
      (hrest : Gives IsName IsOption name none rest) :
      Gives IsName IsOption name (some value) (given ++ rest)

/-- Arguments that start with something to be taken for a name or an option. -/
inductive Starts (IsName : Text → Prop) (IsOption : α → List Text → Prop) : List Text → Prop where
  | ended (rest : List Text) : Starts IsName IsOption ("--".toList :: rest)
  | name {word : Text} (h : IsName word) (rest : List Text) :
      Starts IsName IsOption (word :: rest)
  | option {value : α} {given : List Text} (h : IsOption value given) (rest : List Text) :
      Starts IsName IsOption (given ++ rest)

/-! ## Readers -/

theorem setName?_eq_some_iff {name : Option Text} {word set : Text} :
    setName? name word = some set ↔ name = none ∧ word ≠ [] ∧ word = set := by
  cases name <;> simp [setName?]

theorem setName?_bind {word : Text} (h : word ≠ []) (name : Option Text)
    (f : Text → Option Command) :
    (setName? name word).bind f = if name.isSome then none else f word := by
  cases name <;> simp [setName?, h]

theorem ne_nil_of_setName?_bind {name : Option Text} {word : Text}
    {f : Text → Option Command} {c : Command} (h : (setName? name word).bind f = some c) :
    word ≠ [] := by
  obtain ⟨set, hset, -⟩ := Option.bind_eq_some_iff.mp h
  exact (setName?_eq_some_iff.mp hset).2.1

theorem onlyName?_some (name : Text) (words : List Text) :
    onlyName? (some name) words = if words = [] then some (some name) else none := by
  cases words <;> rfl

theorem onlyName?_eq_some_iff {name all : Option Text} {words : List Text} :
    onlyName? name words = some all ↔
      words = [] ∧ name = all ∨
        ∃ word, words = [word] ∧ word ≠ [] ∧ Joins name (some word) all := by
  constructor
  · intro h
    cases words with
    | nil => exact Or.inl ⟨rfl, Option.some.inj h⟩
    | cons word rest =>
        obtain ⟨set, hset, hrest⟩ := Option.bind_eq_some_iff.mp h
        obtain ⟨rfl, hword, rfl⟩ := setName?_eq_some_iff.mp hset
        rw [onlyName?_some] at hrest
        obtain ⟨rfl, hall⟩ := Option.ite_none_right_eq_some.mp hrest
        obtain rfl := Option.some.inj hall
        exact Or.inr ⟨word, rfl, hword, .second _⟩
  · rintro (⟨rfl, rfl⟩ | ⟨word, rfl, hword, hjoins⟩)
    · rfl
    · cases hjoins
      rw [onlyName?, setName?_eq_some_iff.mpr ⟨rfl, hword, rfl⟩]
      rfl

/-- A reader of arguments that takes the names and the options one by one. -/
structure ReadsInTurn (IsName : Text → Prop) (IsOption : α → List Text → Prop)
    (finish : Option Text → Option α → Option Command)
    (read : Option Text → Option α → List Text → Option Command) : Prop where
  nothing : ∀ name option, read name option [] = finish name option
  ended : ∀ name option rest, read name option ("--".toList :: rest) =
    (onlyName? name rest).bind (finish · option)
  name : ∀ name option word rest, IsName word → read name option (word :: rest) =
    if name.isSome then none else read (some word) option rest
  option : ∀ name option value given rest, IsOption value given →
    read name option (given ++ rest) =
      if option.isSome then none else read name (some value) rest

namespace ReadsInTurn

variable {IsName : Text → Prop} {IsOption : α → List Text → Prop}
  {finish : Option Text → Option α → Option Command}
  {read : Option Text → Option α → List Text → Option Command}

/-- What the arguments give is put together with what has been read before. -/
theorem eq_finish (h : ReadsInTurn IsName IsOption finish read) {given : Option Text}
    {more : Option α} {args : List Text} (hgives : Gives IsName IsOption given more args)
    {name name' : Option Text} {option option' : Option α} (hname : Joins name given name')
    (hoption : Joins option more option') : read name option args = finish name' option' := by
  induction hgives generalizing name option with
  | nothing =>
      obtain rfl := joins_none_right_iff.mp hname
      obtain rfl := joins_none_right_iff.mp hoption
      exact h.nothing name option
  | ended =>
      obtain rfl := joins_none_right_iff.mp hname
      obtain rfl := joins_none_right_iff.mp hoption
      rw [h.ended, onlyName?_eq_some_iff.mpr (Or.inl ⟨rfl, rfl⟩)]
      rfl
  | @endedName word hword =>
      obtain rfl := joins_none_right_iff.mp hoption
      rw [h.ended, onlyName?_eq_some_iff.mpr (Or.inr ⟨word, rfl, hword, hname⟩)]
      rfl
  | name hword _ ih =>
      cases hname
      rw [h.name _ _ _ _ hword]
      exact ih (.first _) hoption
  | option hgiven _ ih =>
      cases hoption
      rw [h.option _ _ _ _ _ hgiven]
      exact ih hname (.first _)

/-- What is read to the end has been given by the arguments, if the reader goes on with nothing
but names and options. -/
theorem exists_gives (h : ReadsInTurn IsName IsOption finish read) {c : Command}
    (hne : ∀ value, ¬ IsOption value [])
    (hstarts : ∀ name option args, args ≠ [] → read name option args = some c →
      Starts IsName IsOption args)
    {args : List Text} {name : Option Text} {option : Option α}
    (hread : read name option args = some c) :
    ∃ given more name' option', Gives IsName IsOption given more args ∧
      Joins name given name' ∧ Joins option more option' ∧ finish name' option' = some c := by
  -- On the number of arguments, because an option can take more than one of them.
  induction hlength : args.length using Nat.strong_induction_on generalizing args name option with
  | _ n ih =>
    subst hlength
    obtain rfl | hargs := eq_or_ne args []
    · rw [h.nothing] at hread
      exact ⟨none, none, name, option, .nothing, by simp, by simp, hread⟩
    · cases hstarts name option args hargs hread with
      | ended rest =>
          rw [h.ended] at hread
          obtain ⟨all, honly, hfinish⟩ := Option.bind_eq_some_iff.mp hread
          obtain ⟨rfl, rfl⟩ | ⟨word, rfl, hword, hjoins⟩ := onlyName?_eq_some_iff.mp honly
          · exact ⟨none, none, name, option, .ended, by simp, by simp, hfinish⟩
          · exact ⟨some word, none, all, option, .endedName hword, hjoins, by simp, hfinish⟩
      | @name word hword rest =>
          rw [h.name _ _ _ _ hword] at hread
          obtain ⟨hfree, hread⟩ := Option.ite_none_left_eq_some.mp hread
          obtain ⟨given, more, name', option', hgives, hgiven, hmore, hfinish⟩ :=
            ih rest.length (Nat.lt_succ_self _) hread rfl
          obtain ⟨rfl, rfl⟩ := joins_some_left_iff.mp hgiven
          obtain rfl : name = none := by simpa using hfree
          exact ⟨some word, more, some word, option', .name hword hgives, .second _, hmore, hfinish⟩
      | @option value given hgiven rest =>
          have hpos := List.length_pos_iff.mpr fun hnil => hne value (hnil ▸ hgiven)
          have hshorter : rest.length < (given ++ rest).length := by
            rw [List.length_append]
            omega
          rw [h.option _ _ _ _ _ hgiven] at hread
          obtain ⟨hfree, hread⟩ := Option.ite_none_left_eq_some.mp hread
          obtain ⟨given', more, name', option', hgives, hgiven', hmore, hfinish⟩ :=
            ih rest.length hshorter hread rfl
          obtain ⟨rfl, rfl⟩ := joins_some_left_iff.mp hmore
          obtain rfl : option = none := by simpa using hfree
          exact ⟨given', some value, name', some value, .option hgiven hgives, hgiven', .second _,
            hfinish⟩

theorem exists_gives_of_none (h : ReadsInTurn IsName IsOption finish read) {c : Command}
    (hne : ∀ value, ¬ IsOption value [])
    (hstarts : ∀ name option args, args ≠ [] → read name option args = some c →
      Starts IsName IsOption args)
    {args : List Text} (hread : read none none args = some c) :
    ∃ name option, Gives IsName IsOption name option args ∧ finish name option = some c := by
  obtain ⟨name, option, name', option', hgives, hname, hoption, hfinish⟩ :=
    h.exists_gives hne hstarts hread
  obtain rfl := joins_none_left_iff.mp hname
  obtain rfl := joins_none_left_iff.mp hoption
  exact ⟨name, option, hgives, hfinish⟩

end ReadsInTurn

/-! ## Assembling -/

/-- Ways to give an output file. A value that is joined to `-o` does not start with an equals
sign, which is part of the mark. -/
inductive IsOut (file : Text) : List Text → Prop where
  | apart {mark : Text} (hmark : mark = "--out".toList ∨ mark = "-o".toList)
      (h : Argument.isValue file = true) : IsOut file [mark, file]
  | joined {mark : Text} (hmark : mark = "--out=".toList ∨ mark = "-o=".toList ∨
      mark = "-o".toList ∧ file.head? ≠ some '=') (h : file ≠ []) : IsOut file [mark ++ file]

theorem ofAssembleArgs?_out {name out : Option Text} {file : Text} {given : List Text}
    (h : IsOut file given) (rest : List Text) :
    ofAssembleArgs? name out (given ++ rest) =
      (setName? out file).bind (ofAssembleArgs? name · rest) := by
  cases h with
  | apart hmark h =>
      obtain rfl | rfl := hmark
      · exact if_pos h
      · exact if_pos h
  | joined hmark h =>
      obtain rfl | rfl | ⟨rfl, hhead⟩ := hmark
      · rfl
      · rfl
      -- Without the equals sign it depends on the value which case is taken.
      · cases file with
        | nil => exact absurd rfl h
        | cons c file =>
            have hc : c ≠ '=' := by simpa using hhead
            rw [List.cons_append, ofAssembleArgs?.eq_def name out]
            simp [Argument.ofText, hc]

/-- The arguments of an assembling run are read one by one. -/
theorem readsInTurn_ofAssembleArgs? :
    ReadsInTurn (Argument.isValue · = true) IsOut (fun name out => name.map (.assemble · out))
      ofAssembleArgs? := by
  constructor
  · intro name out
    rfl
  · intro name out rest
    rfl
  · intro name out word rest hword
    have hne := (Argument.isValue_iff.mp hword).1
    rw [← setName?_bind hne name (ofAssembleArgs? · out rest), ofAssembleArgs?.eq_def name out]
    simp only [Argument.ofText_of_isValue hword]
    rfl
  · intro name out file given rest hgiven
    rw [ofAssembleArgs?_out hgiven]
    refine setName?_bind ?_ out _
    cases hgiven with
    | apart _ h => exact (Argument.isValue_iff.mp h).1
    | joined _ h => exact h

/-- Only help ends the reading of arguments that start in another way. -/
theorem starts_of_ofAssembleArgs? {name out : Option Text} {args : List Text} {c : Command}
    (hargs : args ≠ []) (h : ofAssembleArgs? name out args = some c) (hhelp : c ≠ .help) :
    Starts (Argument.isValue · = true) IsOut args := by
  cases args with
  | nil => exact absurd rfl hargs
  | cons arg rest =>
      rw [ofAssembleArgs?.eq_def] at h
      cases harg : Argument.ofText arg with
      | endOfOptions =>
          obtain ⟨-, rfl⟩ := Argument.ofText_eq_iff.mp harg
          exact .ended rest
      | word word =>
          obtain ⟨hdash, rfl⟩ := Argument.ofText_eq_word_iff.mp harg
          simp only [harg] at h
          exact .name (Argument.isValue_iff.mpr ⟨ne_nil_of_setName?_bind h, hdash⟩) rest
      | long option value =>
          obtain ⟨-, rfl⟩ := Argument.ofText_eq_iff.mp harg
          simp only [harg] at h
          split at h
          · exact absurd (Option.some.inj h).symm hhelp
          · rename_i file hoption
            obtain rfl := Text.eq_toList_of_ofList hoption
            have hout := IsOut.joined (Or.inl rfl) (ne_nil_of_setName?_bind h)
            exact .option hout rest
          · rename_i hoption
            obtain rfl := Text.eq_toList_of_ofList hoption
            cases rest with
            | nil => cases h
            | cons file rest =>
                have hfile := (Option.ite_none_right_eq_some.mp h).1
                exact .option (IsOut.apart (Or.inl rfl) hfile) rest
          · cases h
      | short letters =>
          obtain ⟨-, rfl⟩ := Argument.ofText_eq_iff.mp harg
          simp only [harg] at h
          split at h
          · exact absurd (Option.some.inj h).symm hhelp
          · cases rest with
            | nil => cases h
            | cons file rest =>
                have hfile := (Option.ite_none_right_eq_some.mp h).1
                exact .option (IsOut.apart (Or.inr rfl) hfile) rest
          · have hout := IsOut.joined (Or.inr (Or.inl rfl)) (ne_nil_of_setName?_bind h)
            exact .option hout rest
          · rename_i file _ hequals
            have hhead : file.head? ≠ some '=' := by
              intro hfile
              obtain ⟨value, rfl⟩ := List.head?_eq_some_iff.mp hfile
              exact hequals value rfl
            have hout := IsOut.joined (Or.inr (Or.inr ⟨rfl, hhead⟩)) (ne_nil_of_setName?_bind h)
            exact .option hout rest
          · cases h

/-! ## Checking -/

/-- Ways to ask for symbols. -/
inductive IsSymbols : Unit → List Text → Prop where
  | long : IsSymbols () ["--symbols".toList]
  | short : IsSymbols () ["-s".toList]

/-- The arguments of a check are read one by one. -/
theorem readsInTurn_ofCheckArgs? :
    ReadsInTurn (Argument.isValue · = true) IsSymbols
      (fun name symbols => name.map (.check · symbols.isSome))
      (fun name symbols => ofCheckArgs? name symbols.isSome) := by
  constructor
  · intro name symbols
    rfl
  · intro name symbols rest
    rfl
  · intro name symbols word rest hword
    have hne := (Argument.isValue_iff.mp hword).1
    rw [← setName?_bind hne name (ofCheckArgs? · symbols.isSome rest), ofCheckArgs?.eq_def name]
    simp only [Argument.ofText_of_isValue hword]
    rfl
  · intro name symbols value given rest hgiven
    cases hgiven with
    | long => rfl
    | short => cases symbols <;> rfl

theorem eq_nil_of_checkLetters? {wanted : Bool} {letters : Text}
    (h : checkLetters? true letters = some (.symbols wanted)) : letters = [] := by
  unfold checkLetters? at h
  split at h
  · rfl
  · cases h
  · cases h
  · cases h

theorem eq_of_checkLetters? {symbols wanted : Bool} {letters : Text} (hne : letters ≠ [])
    (h : checkLetters? symbols letters = some (.symbols wanted)) : letters = ['s'] := by
  unfold checkLetters? at h
  split at h
  · exact absurd rfl hne
  · cases h
  · obtain ⟨-, h⟩ := Option.ite_none_left_eq_some.mp h
    rw [eq_nil_of_checkLetters? h]
  · cases h

theorem starts_of_ofCheckArgs? {name : Option Text} {symbols : Option Unit} {args : List Text}
    {c : Command} (hargs : args ≠ []) (h : ofCheckArgs? name symbols.isSome args = some c)
    (hhelp : c ≠ .help) : Starts (Argument.isValue · = true) IsSymbols args := by
  cases args with
  | nil => exact absurd rfl hargs
  | cons arg rest =>
      rw [ofCheckArgs?.eq_def] at h
      cases harg : Argument.ofText arg with
      | endOfOptions =>
          obtain ⟨-, rfl⟩ := Argument.ofText_eq_iff.mp harg
          exact .ended rest
      | word word =>
          obtain ⟨hdash, rfl⟩ := Argument.ofText_eq_word_iff.mp harg
          simp only [harg] at h
          exact .name (Argument.isValue_iff.mpr ⟨ne_nil_of_setName?_bind h, hdash⟩) rest
      | long option value =>
          obtain ⟨-, rfl⟩ := Argument.ofText_eq_iff.mp harg
          simp only [harg] at h
          split at h
          · exact absurd (Option.some.inj h).symm hhelp
          · rename_i hoption
            obtain rfl := Text.eq_toList_of_ofList hoption
            exact .option IsSymbols.long rest
          · cases h
      | short letters =>
          obtain ⟨hform, rfl⟩ := Argument.ofText_eq_iff.mp harg
          simp only [harg] at h
          split at h
          · exact absurd (Option.some.inj h).symm hhelp
          · rename_i hletters
            obtain rfl := eq_of_checkLetters? hform.1 hletters
            exact .option IsSymbols.short rest
          · cases h

end Command

/-! ## All commands -/

/-- The word for a subcommand. -/
def Subcommand.word : Subcommand → Text
  | .assemble => "assemble".toList
  | .check => "check".toList
  | .help => "help".toList

theorem Subcommand.ofText?_eq_some_iff {word : Text} {s : Subcommand} :
    ofText? word = some s ↔ word = s.word := by
  constructor
  · intro h
    rw [ofText?] at h
    split at h
    · rename_i hword
      cases h
      exact Text.eq_toList_of_ofList hword
    · rename_i hword
      cases h
      exact Text.eq_toList_of_ofList hword
    · rename_i hword
      cases h
      exact Text.eq_toList_of_ofList hword
    · cases h
  · rintro rfl
    cases s <;> rfl

namespace Command

/-- A word that is taken for a path and not for a subcommand. -/
def IsPath (word : Text) : Prop :=
  Argument.isValue word = true ∧ ∀ s, word ≠ Subcommand.word s

theorem isPath_iff {word : Text} :
    IsPath word ↔ Argument.isValue word = true ∧ Subcommand.ofText? word = none := by
  rw [IsPath, Option.eq_none_iff_forall_ne_some]
  simp only [ne_eq, Subcommand.ofText?_eq_some_iff]

/-- There are no options without a subcommand. -/
def NoOption (_ : Unit) (_ : List Text) : Prop := False

/-- A subcommand and the arguments after it. A path before it is of no account. -/
inductive HasSubcommand (s : Subcommand) : List Text → List Text → Prop where
  | first (rest : List Text) : HasSubcommand s (s.word :: rest) rest
  | afterPath {path : Text} (h : IsPath path) (rest : List Text) :
      HasSubcommand s (path :: s.word :: rest) rest

/-- The arguments that ask for a command, other than help and the version. -/
inductive AsksFor (args : List Text) : Command → Prop where
  | welcome (h : Gives IsPath NoOption none none args) : AsksFor args .welcome
  | path {name : Text} (h : Gives IsPath NoOption (some name) none args) :
      AsksFor args (.assemble name none)
  | assemble {name : Text} {out : Option Text} {rest : List Text}
      (hs : HasSubcommand .assemble args rest)
      (h : Gives (Argument.isValue · = true) IsOut (some name) out rest) :
      AsksFor args (.assemble name out)
  | check {name : Text} {symbols : Option Unit} {rest : List Text}
      (hs : HasSubcommand .check args rest)
      (h : Gives (Argument.isValue · = true) IsSymbols (some name) symbols rest) :
      AsksFor args (.check name symbols.isSome)

/-- The command that the arguments after a subcommand ask for. -/
def ofSubcommand? : Subcommand → List Text → Option Command
  | .assemble => ofAssembleArgs? none none
  | .check => ofCheckArgs? none false
  | .help => ofHelpArgs?

theorem ofTopArgs?_subcommand (path : Option Text) (s : Subcommand) (rest : List Text) :
    ofTopArgs? path (s.word :: rest) = ofSubcommand? s rest := by
  rw [ofTopArgs?.eq_def]
  simp only [Subcommand.ofText?_eq_some_iff.mpr rfl]
  cases s <;> rfl

/-- Arguments without a subcommand are read one by one. -/
theorem readsInTurn_ofTopArgs? :
    ReadsInTurn IsPath NoOption (fun path _ => some (ofPath path))
      (fun path _ => ofTopArgs? path) := by
  constructor
  · intro path _
    rfl
  · intro path _ rest
    show (onlyName? path rest).map ofPath = _
    rw [Option.map_eq_bind]
    rfl
  · intro path _ word rest hword
    obtain ⟨hvalue, hs⟩ := isPath_iff.mp hword
    have hne := (Argument.isValue_iff.mp hvalue).1
    rw [← setName?_bind hne path (ofTopArgs? · rest), ofTopArgs?.eq_def path]
    simp only [hs, Argument.ofText_of_isValue hvalue]
    rfl
  · intro path _ _ given rest hgiven
    exact hgiven.elim

theorem ofArgs?_of_hasSubcommand {s : Subcommand} {args rest : List Text}
    (h : HasSubcommand s args rest) : ofArgs? args = ofSubcommand? s rest := by
  cases h with
  | first => exact ofTopArgs?_subcommand none s rest
  | @afterPath path hpath =>
      exact (readsInTurn_ofTopArgs?.name none none path _ hpath).trans
        (ofTopArgs?_subcommand (some path) s rest)

theorem AsksFor.ofArgs?_eq {args : List Text} {c : Command} (h : AsksFor args c) :
    ofArgs? args = some c := by
  cases h with
  | welcome h => exact readsInTurn_ofTopArgs?.eq_finish h (.second _) (.second _)
  | path h => exact readsInTurn_ofTopArgs?.eq_finish h (.second _) (.second _)
  | assemble hs h =>
      exact (ofArgs?_of_hasSubcommand hs).trans
        (readsInTurn_ofAssembleArgs?.eq_finish h (.second _) (.second _))
  | check hs h =>
      exact (ofArgs?_of_hasSubcommand hs).trans
        (readsInTurn_ofCheckArgs?.eq_finish h (.second _) (.second _))

/-- Without help and the version, an argument is a subcommand, the mark that ends the options
or the only path. -/
theorem ofTopArgs?_cons_cases {path : Option Text} {arg : Text} {rest : List Text} {c : Command}
    (h : ofTopArgs? path (arg :: rest) = some c) (hversion : c ≠ .version) (hhelp : c ≠ .help) :
    (∃ s, arg = Subcommand.word s ∧ ofSubcommand? s rest = some c) ∨
    (arg = "--".toList ∧ ∃ all, onlyName? path rest = some all ∧ ofPath all = c) ∨
    IsPath arg ∧ path = none ∧ ofTopArgs? (some arg) rest = some c := by
  cases hs : Subcommand.ofText? arg with
  | some s =>
      obtain rfl := Subcommand.ofText?_eq_some_iff.mp hs
      rw [ofTopArgs?_subcommand] at h
      exact Or.inl ⟨s, rfl, h⟩
  | none =>
      rw [ofTopArgs?.eq_def] at h
      simp only [hs] at h
      cases harg : Argument.ofText arg with
      | endOfOptions =>
          simp only [harg] at h
          have hmark := (Argument.ofText_eq_iff.mp harg).2.symm
          exact Or.inr (Or.inl ⟨hmark, Option.map_eq_some_iff.mp h⟩)
      | word word =>
          simp only [harg] at h
          obtain ⟨hdash, rfl⟩ := Argument.ofText_eq_word_iff.mp harg
          obtain ⟨set, hset, h⟩ := Option.bind_eq_some_iff.mp h
          obtain ⟨hpath, hword, rfl⟩ := setName?_eq_some_iff.mp hset
          have hvalue := Argument.isValue_iff.mpr ⟨hword, hdash⟩
          exact Or.inr (Or.inr ⟨isPath_iff.mpr ⟨hvalue, hs⟩, hpath, h⟩)
      | long option value =>
          simp only [harg] at h
          split at h
          · exact absurd (Option.some.inj h).symm hversion
          · exact absurd (Option.some.inj h).symm hhelp
          · cases h
      | short letters =>
          simp only [harg] at h
          split at h
          · exact absurd (Option.some.inj h).symm hversion
          · exact absurd (Option.some.inj h).symm hhelp
          · cases h

theorem eq_help_of_ofHelpArgs? {args : List Text} {c : Command} (h : ofHelpArgs? args = some c) :
    c = .help := by
  unfold ofHelpArgs? at h
  split at h
  · exact (Option.some.inj h).symm
  · obtain ⟨s, -, rfl⟩ := Option.map_eq_some_iff.mp h
    rfl
  · cases h

theorem asksFor_of_ofSubcommand? {s : Subcommand} {args rest : List Text} {c : Command}
    (hs : HasSubcommand s args rest) (h : ofSubcommand? s rest = some c) (hhelp : c ≠ .help) :
    AsksFor args c := by
  cases s with
  | assemble =>
      obtain ⟨name, out, hgives, hfinish⟩ :=
        readsInTurn_ofAssembleArgs?.exists_gives_of_none (fun _ => nofun)
          (fun _ _ _ hargs hread => starts_of_ofAssembleArgs? hargs hread hhelp) h
      obtain ⟨name, rfl, rfl⟩ := Option.map_eq_some_iff.mp hfinish
      exact .assemble hs hgives
  | check =>
      obtain ⟨name, symbols, hgives, hfinish⟩ :=
        readsInTurn_ofCheckArgs?.exists_gives_of_none (fun _ => nofun)
          (fun _ _ _ hargs hread => starts_of_ofCheckArgs? hargs hread hhelp) h
      obtain ⟨name, rfl, rfl⟩ := Option.map_eq_some_iff.mp hfinish
      exact .check hs hgives
  | help => exact absurd (eq_help_of_ofHelpArgs? h) hhelp

theorem asksFor_of_ofArgs? {args : List Text} {c : Command} (h : ofArgs? args = some c)
    (hversion : c ≠ .version) (hhelp : c ≠ .help) : AsksFor args c := by
  cases args with
  | nil =>
      obtain rfl := Option.some.inj h
      exact .welcome .nothing
  | cons arg rest =>
      obtain ⟨s, rfl, hs⟩ | ⟨rfl, all, honly, rfl⟩ | ⟨hpath, -, hrest⟩ :=
        ofTopArgs?_cons_cases h hversion hhelp
      · exact asksFor_of_ofSubcommand? (.first rest) hs hhelp
      · obtain ⟨rfl, rfl⟩ | ⟨word, rfl, hword, hjoins⟩ := onlyName?_eq_some_iff.mp honly
        · exact .welcome .ended
        · cases hjoins
          exact .path (.endedName hword)
      · -- After a path there is no second one.
        cases rest with
        | nil =>
            obtain rfl := Option.some.inj hrest
            exact .path (.name hpath .nothing)
        | cons arg' rest =>
            obtain ⟨s, rfl, hs⟩ | ⟨rfl, all, honly, rfl⟩ | ⟨-, hnone, -⟩ :=
              ofTopArgs?_cons_cases hrest hversion hhelp
            · exact asksFor_of_ofSubcommand? (.afterPath hpath rest) hs hhelp
            · obtain ⟨rfl, rfl⟩ | ⟨word, -, -, hjoins⟩ := onlyName?_eq_some_iff.mp honly
              · exact .path (.name hpath .ended)
              · cases hjoins
            · cases hnone

/-- The arguments that ask for greeting, assembling or checking. -/
theorem ofArgs?_eq_some_iff {args : List Text} {c : Command} (hversion : c ≠ .version)
    (hhelp : c ≠ .help) : ofArgs? args = some c ↔ AsksFor args c :=
  ⟨fun h => asksFor_of_ofArgs? h hversion hhelp, AsksFor.ofArgs?_eq⟩

/-! ## The usual command lines -/

theorem ofArgs?_eq_welcome_iff {args : List Text} :
    ofArgs? args = some .welcome ↔ args = [] ∨ args = ["--".toList] := by
  rw [ofArgs?_eq_some_iff (by simp) (by simp)]
  constructor
  · rintro ⟨h⟩
    cases h with
    | nothing => exact Or.inl rfl
    | ended => exact Or.inr rfl
  · rintro (rfl | rfl)
    · exact .welcome .nothing
    · exact .welcome .ended

variable {name file : Text}

theorem ofArgs?_path (h : IsPath name) : ofArgs? [name] = some (.assemble name none) :=
  (AsksFor.path (.name h .nothing)).ofArgs?_eq

theorem ofArgs?_assemble (h : Argument.isValue name = true) :
    ofArgs? ["assemble".toList, name] = some (.assemble name none) :=
  (AsksFor.assemble (.first _) (.name h .nothing)).ofArgs?_eq

/-- The output may be given before or after the name. -/
theorem ofArgs?_assemble_out (h : Argument.isValue name = true) {given : List Text}
    (hgiven : IsOut file given) :
    ofArgs? ("assemble".toList :: name :: given) = some (.assemble name (some file)) ∧
      ofArgs? ("assemble".toList :: (given ++ [name])) = some (.assemble name (some file)) := by
  constructor
  · rw [← List.append_nil given]
    exact (AsksFor.assemble (.first _) (.name h (.option hgiven .nothing))).ofArgs?_eq
  · exact (AsksFor.assemble (.first _) (.option hgiven (.name h .nothing))).ofArgs?_eq

theorem ofArgs?_check (h : Argument.isValue name = true) :
    ofArgs? ["check".toList, name] = some (.check name false) :=
  (AsksFor.check (.first _) (.name h .nothing)).ofArgs?_eq

theorem ofArgs?_check_symbols (h : Argument.isValue name = true) {given : List Text}
    (hgiven : IsSymbols () given) :
    ofArgs? ("check".toList :: name :: given) = some (.check name true) ∧
      ofArgs? ("check".toList :: (given ++ [name])) = some (.check name true) := by
  constructor
  · rw [← List.append_nil given]
    exact (AsksFor.check (.first _) (.name h (.option hgiven .nothing))).ofArgs?_eq
  · exact (AsksFor.check (.first _) (.option hgiven (.name h .nothing))).ofArgs?_eq

end Command

end Cli

end MightyAsm
