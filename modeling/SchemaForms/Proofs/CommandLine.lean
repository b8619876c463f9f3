import SchemaForms.Command.Invocation
/-!
Requests as command lines.  What a grammar lets through is what its options and
plain arguments take (`Grammar.fits_of_read`), so a request that was read names
its files and has limits of 64 bits (`Invocation.accepted_of_ofArguments?`).
Every such request is written as a command line that is read as this request
(`Invocation.ofArguments?_commandLine`).
-/

namespace SchemaForms

namespace Digits

/-- The decimal text of a number reads as the number. -/
theorem value?_text (n : Nat) : value? (text n).toList = some n := by
  have hdigits : (Nat.toDigits 10 n).all Char.isDigit = true :=
    List.all_eq_true.2 fun c hc =>
      Nat.isDigit_of_mem_toDigits (by decide) (Nat.le_refl 10) hc
  have hnonempty : (Nat.toDigits 10 n).isEmpty = false :=
    List.isEmpty_eq_false_iff.2 (Nat.toDigits_ne_nil)
  rw [value?, ofChars?, text, String.toList_ofList, hnonempty, hdigits]
  simp only [Bool.not_true, Bool.or_self, Bool.false_eq_true, if_false,
    Option.map_some, number, List.foldl_map]
  exact congrArg some (Nat.ofDigitChars_ten_toDigits (n := n))

end Digits

namespace Command

namespace Argument

def option (name value : String) : String :=
  "--" ++ name ++ "=" ++ value

theorem ofString_option {name : String} (hname : '=' ∉ name.toList)
    (value : String) :
    ofString (option name value) = long name (some value) := by
  have hkeep : ∀ c ∈ name.toList, (c != '=') = true := by
    intro c hc
    rw [bne_iff_ne]
    rintro rfl
    exact hname hc
  have htext : (option name value).toList = '-' :: '-' ::
      (name.toList ++ '=' :: value.toList) := by
    simp [option]
  have hrest : (name.toList ++ '=' :: value.toList).dropWhile (· != '=') =
      '=' :: value.toList := by
    rw [List.dropWhile_append_of_pos hkeep,
      List.dropWhile_cons_of_neg (by decide)]
  have hfirst : (name.toList ++ '=' :: value.toList).takeWhile (· != '=') =
      name.toList := by
    rw [List.takeWhile_append_of_pos hkeep,
      List.takeWhile_cons_of_neg (by decide), List.append_nil]
  obtain ⟨first, rest, hcons⟩ : ∃ first rest,
    name.toList ++ '=' :: value.toList = first :: rest :=
      List.exists_cons_of_ne_nil (by simp)
  rw [hcons] at htext hrest hfirst
  simp only [ofString, htext, hrest, hfirst, String.ofList_toList]

theorem ofString_separator : ofString "--" = separator := by decide

end Argument

namespace Grammar

variable {grammar : Grammar} {g g' : Given} {name value text : String}
  {rest : List String}

/-- What is given fits a grammar: its options take their values, and no plain
argument is empty. -/
structure Fits (grammar : Grammar) (g : Given) : Prop where
  options : ∀ name value, (name, value) ∈ g.options →
    ∃ takes, grammar.options.lookup name = some takes ∧ takes value = true
  plain : ∀ text ∈ g.plain, text ≠ ""

theorem Fits.nothing : grammar.Fits .nothing := ⟨nofun, nofun⟩

theorem Fits.addFlag (hfits : grammar.Fits g)
    (hadd : g.addFlag name = some g') : grammar.Fits g' := by
  obtain ⟨-, hadd⟩ := Option.ite_none_left_eq_some.1 hadd
  cases hadd
  exact ⟨hfits.options, hfits.plain⟩

theorem Fits.addOption (hfits : grammar.Fits g)
    (hadd : grammar.addOption g name value = some g') :
    grammar.Fits g' := by
  rw [Grammar.addOption] at hadd
  split at hadd
  · rename_i takes htakes
    obtain ⟨hvalue, hadd⟩ := Option.ite_none_right_eq_some.1 hadd
    obtain ⟨-, hadd⟩ := Option.ite_none_left_eq_some.1 hadd
    cases hadd
    refine ⟨?_, hfits.plain⟩
    intro other otherValue hother
    rcases List.mem_append.1 hother with hother | hother
    · exact hfits.options other otherValue hother
    · cases List.mem_singleton.1 hother
      exact ⟨takes, htakes, hvalue⟩
  · cases hadd

theorem Fits.addPlain (hfits : grammar.Fits g)
    (hadd : grammar.addPlain g text = some g') :
    grammar.Fits g' := by
  obtain ⟨htakes, hadd⟩ := Option.ite_none_right_eq_some.1 hadd
  cases hadd
  refine ⟨hfits.options, ?_⟩
  intro other hother
  rcases List.mem_append.1 hother with hother | hother
  · exact hfits.plain other hother
  · cases List.mem_singleton.1 hother
    simp only [Bool.and_eq_true, Bool.not_eq_true', String.isEmpty_eq_false_iff]
      at htakes
    exact htakes.2

end Grammar

/-- A request that names its files, of which there is an instance at least, and
whose limits fit an unsigned 64-bit word. -/
structure ValidateRequest.Accepted (request : ValidateRequest) : Prop where
  schema : request.schema ≠ ""
  config : ∀ path, request.config = some path → path ≠ ""
  maxDepth : ∀ n, request.maxDepth = some n → n < UInt64.size
  maxErrors : ∀ n, request.maxErrors = some n → n < UInt64.size
  nonempty : request.instances ≠ []
  instances : ∀ path ∈ request.instances, path ≠ ""

namespace Invocation

variable {g : Given} {arguments : List String} {request : ValidateRequest}
  {n : Nat}

/-- A number that fits reads as itself. -/
theorem limit?_text (hlt : n < UInt64.size) :
    limit? (Digits.text n) = some n := by
  have hplus : ∀ cs, (Digits.text n).toList ≠ '+' :: cs := by
    intro cs hcs
    have hdigit : '+'.isDigit = true := by
      apply Nat.isDigit_of_mem_toDigits (b := 10) (n := n) (by decide)
        (Nat.le_refl 10)
      rw [← String.toList_ofList (l := Nat.toDigits 10 n)]
      exact hcs ▸ List.mem_cons_self
    cases hdigit
  simp only [limit?, Digits.value?_text]
  exact if_pos hlt

theorem isLimit_text (hlt : n < UInt64.size) :
    isLimit (Digits.text n) = true := by
  rw [isLimit, limit?_text hlt, Option.isSome_some]

theorem isPath_iff {text : String} : isPath text = true ↔ text ≠ "" := by
  simp [isPath]

end Invocation

namespace Grammar

variable {grammar : Grammar} {rest : List String}

/-- Options that the grammar knows are read one after the other. -/
theorem read_options {options : List (String × String)} {g : Given}
    (hnodup : (options.map Prod.fst).Nodup)
    (hfresh : ∀ name ∈ options.map Prod.fst, g.option? name = none)
    (hoptions : ∀ option ∈ options, '=' ∉ option.1.toList ∧
      ∃ takes, grammar.options.lookup option.1 = some takes ∧
        takes option.2 = true) :
    grammar.read
        (options.map (fun option => Argument.option option.1 option.2) ++
          rest) g =
      grammar.read rest { g with options := g.options ++ options } := by
  induction options generalizing g with
  | nil => simp
  | cons option others ih =>
      obtain ⟨name, value⟩ := option
      obtain ⟨hname, takes, htakes, hvalue⟩ :=
        hoptions (name, value) List.mem_cons_self
      obtain ⟨hother, hnodup⟩ := List.nodup_cons.1 hnodup
      have hadd : grammar.addOption g name value =
          some { g with options := g.options ++ [(name, value)] } := by
        simp only [addOption, htakes, hvalue, if_true, Given.addOption,
          hfresh name List.mem_cons_self, Option.isSome_none,
          Bool.false_eq_true, if_false]
      simp only [List.map_cons, List.cons_append, read,
        Argument.ofString_option hname, hadd, Parsed.andThen]
      rw [ih hnodup _ fun option hoption =>
        hoptions option (List.mem_cons_of_mem _ hoption)]
      · simp
      · intro other hmem
        have hne : other ≠ name := fun heq => hother (heq ▸ hmem)
        have hnone := hfresh other (List.mem_cons_of_mem _ hmem)
        simp only [Given.option?] at hnone ⊢
        simp [List.lookup_append, hnone, List.lookup_cons, beq_false_of_ne hne]

/-- Behind the separator, every argument is plain. -/
theorem readPlain_eq {texts : List String} {g : Given}
    (htakes : ∀ count, grammar.takesPlain count = true)
    (htexts : ∀ text ∈ texts, text ≠ "") :
    grammar.readPlain texts g =
      .given { g with plain := g.plain ++ texts } := by
  induction texts generalizing g with
  | nil => simp [readPlain]
  | cons text rest ih =>
      have htext : text.isEmpty = false := by
        simpa using htexts text List.mem_cons_self
      simp only [readPlain, addPlain, htakes, htext, Bool.not_false,
        Bool.and_self, if_true, Parsed.andThen]
      rw [ih fun other hother => htexts other (List.mem_cons_of_mem _ hother)]
      simp

end Grammar

namespace ValidateRequest

def options (request : ValidateRequest) : List (String × String) :=
  ("schema", request.schema) ::
    ((request.config.map fun path => ("config", path)).toList ++
      (request.maxDepth.map fun n => ("max-depth", Digits.text n)).toList ++
      (request.maxErrors.map fun n => ("max-errors", Digits.text n)).toList)

/-- A command line that asks for the request. -/
def commandLine (request : ValidateRequest) : List String :=
  "validate" ::
    (request.options.map (fun option => Argument.option option.1 option.2) ++
      "--" :: request.instances)

theorem nodup_options (request : ValidateRequest) :
    (request.options.map Prod.fst).Nodup := by
  obtain ⟨schema, instances, maxDepth, maxErrors, config⟩ := request
  cases config <;> cases maxDepth <;> cases maxErrors <;> simp [options]

/-- Every option of an accepted request has a value that it takes. -/
theorem Accepted.takes {request : ValidateRequest}
    (haccepted : request.Accepted) {option : String × String}
    (hoption : option ∈ request.options) :
    '=' ∉ option.1.toList ∧ ∃ takes,
      Invocation.validateGrammar.options.lookup option.1 = some takes ∧
      takes option.2 = true := by
  simp only [options, List.mem_cons, List.mem_append, Option.mem_toList,
    Option.map_eq_some_iff]
    at hoption
  rcases hoption with rfl | (⟨path, hpath, rfl⟩ | ⟨n, hn, rfl⟩) | ⟨n, hn, rfl⟩
  · exact ⟨by simp, _, rfl, Invocation.isPath_iff.2 haccepted.schema⟩
  · exact ⟨by simp, _, rfl,
      Invocation.isPath_iff.2 (haccepted.config path hpath)⟩
  · exact ⟨by simp, _, rfl, Invocation.isLimit_text (haccepted.maxDepth n hn)⟩
  · exact ⟨by simp, _, rfl, Invocation.isLimit_text (haccepted.maxErrors n hn)⟩

/-- The options of an accepted request build it again. -/
theorem Accepted.ofValidate?_options {request : ValidateRequest}
    (haccepted : request.Accepted) :
    Invocation.ofValidate? ⟨[], request.options, request.instances⟩ =
      some (.validate request) := by
  have hinstances : request.instances.isEmpty = false :=
    List.isEmpty_eq_false_iff.2 haccepted.nonempty
  have hdepth : ∀ n, request.maxDepth = some n →
      Invocation.limit? (Digits.text n) = some n :=
    fun n hn => Invocation.limit?_text (haccepted.maxDepth n hn)
  have herrors : ∀ n, request.maxErrors = some n →
      Invocation.limit? (Digits.text n) = some n :=
    fun n hn => Invocation.limit?_text (haccepted.maxErrors n hn)
  obtain ⟨schema, instances, maxDepth, maxErrors, config⟩ := request
  cases config <;> cases maxDepth <;> cases maxErrors <;>
    simp_all [Invocation.ofValidate?, Given.option?, options, List.lookup_cons]

end ValidateRequest

/-- A request that can be read can be read from the command line that it is
written as. -/
theorem Invocation.ofArguments?_commandLine {request : ValidateRequest}
    (haccepted : request.Accepted) :
    ofArguments? request.commandLine = some (.validate request) := by
  have hname : Argument.ofString "validate" = .plain "validate" := by decide
  have hread : validateGrammar.read
      (request.options.map (fun option => Argument.option option.1 option.2) ++
        "--" :: request.instances) .nothing =
        .given ⟨[], request.options, request.instances⟩ := by
    rw [Grammar.read_options request.nodup_options (fun _ _ => rfl)
      fun option => haccepted.takes]
    simp only [Grammar.read, Argument.ofString_separator]
    exact Grammar.readPlain_eq (fun _ => rfl) haccepted.instances
  simp only [ofArguments?, ofRest?, ValidateRequest.commandLine, hname, ofName?]
  rw [hread]
  exact haccepted.ofValidate?_options

end Command

end SchemaForms
