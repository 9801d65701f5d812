import AnnotationIndex.CommandLine.Help
import AnnotationIndex.CommandLine.Suggestion

/-!
Reading the arguments of the program: which command they name, with which options, or why they name none.
-/
namespace AnnotationIndex
open Text

/-- Arguments sorted out: the options that were given, by name and in order, and the rest. What follows the first
option that is not known counts as unknown too. -/
structure SortedArguments where
  given : List (Text × Option Text)
  operands : List Text
  unknown : List Text

namespace SortedArguments

def give (o : OptionUsage) (value : Option Text) (s : SortedArguments) : SortedArguments :=
  { s with given := (o.name, value) :: s.given }

def keep (unknown : Bool) (args : List Text) (s : SortedArguments) : SortedArguments :=
  if unknown then { s with unknown := args ++ s.unknown } else { s with operands := args ++ s.operands }

def isOptionLike (arg : Text) : Bool := 1 < arg.length && arg.head? == some (unit '-')

def endOfOptions : Text := "--"

inductive Reading where
  /-- An option; where it takes a value, the value follows unless it is given here. -/
  | option (o : OptionUsage) (value : Option Text)
  /-- An option without a value, with more letters behind it. -/
  | letters (o : OptionUsage) (more : Text)
  | other

def readLetter (options : List OptionUsage) (arg : Text) : Reading :=
  match arg with
  | dash :: c :: m :: more =>
    if dash == unit '-' && c != unit '-' then
      match options.find? (·.isSpelt [dash, c]) with
      | some o => if o.value.isSome then .option o (some (m :: more)) else .letters o (m :: more)
      | none => .other
    else .other
  | _ => .other

def readAssigned (options : List OptionUsage) (arg : Text) : Reading :=
  match arg.idxOf? (unit '=') with
  | some i =>
    if startsWith arg endOfOptions && 2 < i then
      match options.find? (·.isSpelt (arg.take i)) with
      | some o => if o.value.isSome then .option o (some (arg.drop (i + 1))) else .other
      | none => .other
    else .other
  | none => .other

def read (options : List OptionUsage) (arg : Text) : Reading :=
  match if isOptionLike arg then options.find? (·.isSpelt arg) else none with
  | some o => .option o none
  | none =>
    match readLetter options arg with
    | .other => readAssigned options arg
    | r => r

/-- Units yet to be read, so that letters taken apart end. -/
def size : List Text → Nat
  | [] => 0
  | a :: rest => a.length + 1 + size rest

theorem length_readLetter {options : List OptionUsage} {arg more : Text} {o : OptionUsage}
    (h : readLetter options arg = .letters o more) : more.length + 2 = arg.length := by
  unfold readLetter at h
  split at h
  · split at h
    · split at h
      · split at h
        · cases h
        · cases h; simp
      · cases h
    · cases h
  · cases h

theorem length_letters {options : List OptionUsage} {arg more : Text} {o : OptionUsage}
    (h : read options arg = .letters o more) : more.length + 2 = arg.length := by
  unfold read at h
  split at h
  · cases h
  · split at h
    · rename_i hl
      unfold readAssigned at h
      repeat' split at h
      all_goals cases h
    · rename_i r hr
      exact length_readLetter h

def ofList (options : List OptionUsage) (unknown : Bool) : List Text → Except OptionUsage SortedArguments
  | [] => .ok ⟨[], [], []⟩
  | arg :: rest =>
    if arg == endOfOptions then
      .ok (keep unknown (if unknown then arg :: rest else rest) ⟨[], [], []⟩)
    else
      match _h : read options arg with
      | .option o (some value) => (ofList options unknown rest).map (give o (some value))
      | .option o none =>
        if o.value.isNone then (ofList options unknown rest).map (give o none)
        else
          match rest with
          | [] => .error o
          | value :: rest => (ofList options unknown rest).map (give o (some value))
      | .letters o more => (ofList options unknown ((unit '-' :: more) :: rest)).map (give o none)
      | .other =>
        let unknown := unknown || isOptionLike arg
        (ofList options unknown rest).map (keep unknown [arg])
termination_by args => size args
decreasing_by
  all_goals simp_all only [size]
  · omega
  · omega
  · omega
  · have := length_letters _h; simp only [List.length_cons]; omega
  · omega

end SortedArguments

/-- The options of a command as they were given; the last of several values counts. -/
structure CommandOptions where
  config : Option Text
  root : Option Text
  limit : Option Text
  debounce : Option Text
  strict : Bool
  json : Bool
  verbose : Bool
  quiet : Bool
  bestEffort : Bool
  poll : Bool
  deriving DecidableEq

def CommandOptions.ofGiven (given : List (Text × Option Text)) : CommandOptions :=
  let value (o : OptionUsage) : Option Text := (given.reverse.lookup o.name).join
  let isGiven (name : String) : Bool := given.any (·.1 == ofString name)
  { config := value .config
    root := value .root
    limit := value .limit
    debounce := value .debounce
    strict := isGiven "strict"
    json := isGiven "json"
    verbose := isGiven "verbose"
    quiet := isGiven "quiet"
    bestEffort := isGiven "best-effort"
    poll := !isGiven "no-poll" }

inductive UsageFault where
  | unknownCommand (name : Text)
  | unknownOption (flag : Text) (known : List OptionUsage)
  | missingArgument (argument : ArgumentUsage)
  | missingValue (option : OptionUsage)

def UsageFault.message : UsageFault → Text
  | unknownCommand name =>
    "error: unknown command '" ++ name ++ "'" ++
      Suggestion.text name (Command.all.map Command.name ++ [Program.helpName])
  | unknownOption flag known =>
    let suggestion :=
      if startsWith flag Suggestion.dashes then Suggestion.text flag (known.map OptionUsage.long) else []
    "error: unknown option '" ++ flag ++ "'" ++ suggestion
  | missingArgument argument => "error: missing required argument '" ++ argument.name ++ "'"
  | missingValue option => "error: option '" ++ option.flags ++ "' argument missing"

inductive Invocation where
  | version
  | help (page : HelpPage)
  /-- Nothing that can be done, so that help is shown instead. -/
  | helpless
  | misused (fault : UsageFault)
  | run (command : Command) (operands : List Text) (options : CommandOptions)

namespace Invocation

def asksForHelp (args : List Text) : Bool := args.any OptionUsage.help.isSpelt

def lacking? (c : Command) (operands : List Text) : Option ArgumentUsage :=
  (c.arguments.drop operands.length).find? (·.required)

def ofCommand (c : Command) (operands args : List Text) : Invocation :=
  match SortedArguments.ofList c.options false args with
  | .error o => .misused (.missingValue o)
  | .ok s =>
    if asksForHelp s.unknown then .help (.ofCommand c)
    else
      match s.unknown, lacking? c (operands ++ s.operands) with
      | flag :: _, _ => .misused (.unknownOption flag (c.shownOptions ++ Program.shownOptions))
      | [], some a => .misused (.missingArgument a)
      | [], none => .run c (operands ++ s.operands) (.ofGiven s.given)

def ofHelp : Option Text → Invocation
  | none | some [] => .help .ofProgram
  | some name =>
    match Command.ofName? name with
    | some c => .help (.ofCommand c)
    | none => .helpless

def ofOperands (s : SortedArguments) : Invocation :=
  match s.operands with
  | [] =>
    match s.unknown with
    | [] => .helpless
    | flag :: rest =>
      if asksForHelp (flag :: rest) then .help .ofProgram
      else .misused (.unknownOption flag Program.shownOptions)
  | name :: operands =>
    match Command.ofName? name with
    | some c => ofCommand c operands s.unknown
    | none =>
      if name == Program.helpName then ofHelp operands.head?
      else if asksForHelp s.unknown then .help .ofProgram
      else .misused (.unknownCommand name)

/-- What the arguments of the program ask for. Its version may be asked for anywhere among them. -/
def ofArguments (args : List Text) : Invocation :=
  match SortedArguments.ofList Program.options false args with
  | .error o => .misused (.missingValue o)
  | .ok s => if s.given.isEmpty then ofOperands s else .version

end Invocation
end AnnotationIndex
