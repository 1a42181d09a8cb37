import Flowline.Text.Quoted

/-!
# The command line

Flags may stand anywhere among the other arguments.  A long flag is `--name` or `--name=value`;
short flags may be joined behind one dash, and the rest of such a group is the value of the first
flag that takes one.  Behind `--` there are no more flags.

Some long flags have a second name, and those that dump intermediate results may be written with a
single dash.

## A value in the next argument

A flag at the end of an argument takes the next argument as its value, whatever that looks like.
The reader never looks ahead for it: such a flag is `Pending`, and the next step of the same
recursion over the arguments hands it the value or finds that there is none.  So every step takes
exactly one argument, and `readArguments` is an induction on the list.
-/

namespace Flowline.Command

/-! ## Flags -/

/-- The flags. -/
inductive Flag where
  | listing
  | graphs
  | flows
  | declarations
  | output
  | target
  | verbose
  | help
  | version
  deriving DecidableEq, Repr

namespace Flag

/-- All flags. -/
def all : List Flag :=
  [listing, graphs, flows, declarations, output, target, verbose, help, version]

/-- The long name of a flag. -/
def name : Flag → Text
  | listing => "dp4"
  | graphs => "dcfg"
  | flows => "dflows"
  | declarations => "ddecls"
  | output => "output"
  | target => "target"
  | verbose => "verbose"
  | help => "help"
  | version => "version"

/-- The second name of a flag. -/
def alias? : Flag → Option Text
  | listing => some "dump-p4"
  | graphs => some "dump-cfg"
  | flows => some "dump-flows"
  | declarations => some "dump-decls"
  | _ => none

/-- The letter of a flag. -/
def letter? : Flag → Option Char
  | output => some 'o'
  | verbose => some 'v'
  | help => some 'h'
  | _ => none

/-- Whether a flag has a value of its own; the others are on or off. -/
def takesValue : Flag → Bool
  | output => true
  | target => true
  | _ => false

/-- The flag of a long name. -/
def ofName? (name : Text) : Option Flag :=
  all.find? fun f => f.name == name || f.alias? == some name

/-- The flag of a letter. -/
def ofLetter? (c : Char) : Option Flag := all.find? fun f => f.letter? == some c

/-- A flag in messages. -/
def shown (f : Flag) : Text :=
  match f.letter? with
  | some c => "-" ++ c.toString ++ ", --" ++ f.name
  | none => "--" ++ f.name

end Flag

/-! ## Options -/

/-- What the flags ask for. -/
structure Options where
  listing : Bool := false
  graphs : Bool := false
  flows : Bool := false
  declarations : Bool := false
  output : Text := ""
  target : Text := ""
  verbose : Bool := false
  help : Bool := false
  version : Bool := false
  deriving DecidableEq, Repr

/-- What is wrong with an argument. -/
inductive FlagError where
  | malformed (arg : Text)
  | unknownName (name : Text)
  /-- A letter among those behind a dash. -/
  | unknownLetter (c : Char) (letters : Text)
  | noValue (name : Text)
  | noValueForLetter (c : Char) (letters : Text)
  | notBool (f : Flag) (value : Text)
  deriving DecidableEq, Repr

/-- A letter between single quotes.  Of a byte beyond the ASCII letters, the first byte of its
two-byte form is shown. -/
def quotedLetter (c : Char) : Text :=
  let n := c.toNat
  let shown := if n < 0x80 then c else Char.ofNat (if n < 0xC0 then 0xC2 else 0xC3)
  let inner : List Char :=
    if shown = '\'' then ['\\', '\''] else if shown = '"' then ['"'] else Text.quoteChar shown
  "'" ++ String.ofList inner ++ "'"

/-- The message of a wrong argument. -/
def FlagError.message : FlagError → Text
  | malformed arg => "bad flag syntax: " ++ arg
  | unknownName name => "unknown flag: --" ++ name
  | unknownLetter c letters => "unknown shorthand flag: " ++ quotedLetter c ++ " in -" ++ letters
  | noValue name => "flag needs an argument: --" ++ name
  | noValueForLetter c letters =>
    "flag needs an argument: " ++ quotedLetter c ++ " in -" ++ letters
  | notBool f value =>
    "invalid argument " ++ value.quoted ++ " for " ++ f.shown.quoted ++
      " flag: strconv.ParseBool: parsing " ++ value.quoted ++ ": invalid syntax"

/-- The truth value of a word. -/
def truth? (value : Text) : Option Bool :=
  if value ∈ ["1", "t", "T", "TRUE", "true", "True"] then some true
  else if value ∈ ["0", "f", "F", "FALSE", "false", "False"] then some false
  else none

/-- Sets a flag that is on or off. -/
def Options.turn (o : Options) (f : Flag) (b : Bool) : Options :=
  match f with
  | .listing => { o with listing := b }
  | .graphs => { o with graphs := b }
  | .flows => { o with flows := b }
  | .declarations => { o with declarations := b }
  | .verbose => { o with verbose := b }
  | .help => { o with help := b }
  | .version => { o with version := b }
  | .output => o
  | .target => o

/-- Sets a flag to a value. -/
def Options.set (o : Options) (f : Flag) (value : Text) : Except FlagError Options :=
  match f with
  | .output => .ok { o with output := value }
  | .target => .ok { o with target := value }
  | f =>
    match truth? value with
    | some b => .ok (o.turn f b)
    | none => .error (.notBool f value)

/-! ## Arguments -/

/-- The options and the other arguments. -/
structure Arguments where
  options : Options := {}
  files : List Text := []
  deriving DecidableEq, Repr

/-- A flag whose value is the next argument, and what is wrong if there is none. -/
structure Pending where
  flag : Flag
  missing : FlagError

/-- Reads letters behind a dash.  A group that begins like a flag of a test run is skipped. -/
def readLetters : List Char → Options → Except FlagError (Options × Option Pending)
  | [], o => .ok (o, none)
  | c :: cs, o =>
    if "test.".toList.isPrefixOf (c :: cs) then .ok (o, none)
    else
      match Flag.ofLetter? c with
      | none => .error (.unknownLetter c (String.ofList (c :: cs)))
      | some f =>
        match cs with
        | '=' :: v :: vs => (o.set f (String.ofList (v :: vs))).map fun o => (o, none)
        | cs =>
          if f.takesValue then
            match cs with
            | [] => .ok (o, some ⟨f, .noValueForLetter c c.toString⟩)
            | cs => (o.set f (String.ofList cs)).map fun o => (o, none)
          else readLetters cs (o.turn f true)

/-- Reads what stands behind two dashes. -/
def readName (arg : Text) (cs : List Char) (o : Options) :
    Except FlagError (Options × Option Pending) :=
  match cs with
  | [] => .error (.malformed arg)
  | c :: _ =>
    if c = '-' ∨ c = '=' then .error (.malformed arg)
    else
      let name := String.ofList (cs.takeWhile (· != '='))
      match Flag.ofName? name with
      | none => .error (.unknownName name)
      | some f =>
        match cs.dropWhile (· != '=') with
        | _ :: value => (o.set f (String.ofList value)).map fun o => (o, none)
        | [] =>
          if f.takesValue then .ok (o, some ⟨f, .noValue name⟩) else .ok (o.turn f true, none)

/-- Reads arguments behind those already read. -/
def readArguments : Option Pending → Arguments → List Text → Except FlagError Arguments
  | none, a, [] => .ok a
  | some p, _, [] => .error p.missing
  | some p, a, value :: rest =>
    match a.options.set p.flag value with
    | .error e => .error e
    | .ok o => readArguments none { a with options := o } rest
  | none, a, arg :: rest =>
    let read : Option (Except FlagError (Options × Option Pending)) :=
      match arg.toList with
      | '-' :: '-' :: cs => some (readName arg cs a.options)
      | '-' :: c :: cs => some (readLetters (c :: cs) a.options)
      | _ => none
    if arg = "--" then .ok { a with files := a.files ++ rest }
    else
      match read with
      | none => readArguments none { a with files := a.files ++ [arg] } rest
      | some (.error e) => .error e
      | some (.ok (o, pending)) => readArguments pending { a with options := o } rest

/-- The flags that may be written with a single dash. -/
def singleDash : List Flag := [.listing, .graphs, .flows, .declarations]

/-- A flag with a single dash as one with two. -/
def normalizeArgument (arg : Text) : Text :=
  match singleDash.find? fun f => arg == "-" ++ f.name with
  | some f => "--" ++ f.name
  | none => arg

/-- All flags with two dashes. -/
def normalize (args : List Text) : List Text := args.map normalizeArgument

/-! ## Invocations -/

/-- What a command line asks for. -/
inductive Invocation where
  | fail (message : Text)
  | help
  | version
  | compile (o : Options) (file : Text)
  deriving DecidableEq, Repr

/-- What arguments ask for.  Without a file there is only help. -/
def Invocation.ofArgs (args : List Text) : Invocation :=
  match readArguments none {} (normalize args) with
  | .error e => .fail e.message
  | .ok a =>
    if a.options.help then .help
    else if a.options.version then .version
    else
      match a.files with
      | [] => .help
      | [file] => .compile a.options file
      | files => .fail ("accepts at most 1 arg(s), received " ++ toString files.length)

end Flowline.Command
