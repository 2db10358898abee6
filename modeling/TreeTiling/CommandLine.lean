import TreeTiling.Compile
import TreeTiling.Flow.Dot
import TreeTiling.Flow.Report

/-!
The command line: its arguments, and what a run prints.

A run is a function of the options and of what the system answers, so it can be described without
touching any file: the program text (or why it could not be read), and whether the file for the
drawing could be written.
-/

namespace TreeTiling.CommandLine

----------------------------------------------------------------------------------------------
-- Arguments
----------------------------------------------------------------------------------------------

/-- What a run is asked to do. -/
structure Options where
  /-- The file with the program; standard input if there is none. -/
  input : Option String := none
  liveness : Bool := false
  /-- The file for the flow graphs. -/
  dot : Option String := none
  dumpRules : Bool := false
  stats : Bool := false
  /-- How often more logging was asked for; what a run prints does not depend on it. -/
  verbosity : Nat := 0

/-- What is wrong with the arguments. -/
inductive UsageError where
  | unknown (argument : String)
  | repeated (argument : String)
  | missingValue (argument : String)
  | unexpectedValue (argument : String)
  | unexpectedInput (argument : String)

def UsageError.message : UsageError → String
  | unknown argument => "unexpected argument '" ++ argument ++ "' found"
  | repeated argument => "the argument '" ++ argument ++ "' cannot be used multiple times"
  | missingValue argument => "a value is required for '" ++ argument ++ "' but none was supplied"
  | unexpectedValue argument => "unexpected value for '" ++ argument ++ "' found"
  | unexpectedInput argument => "unexpected argument '" ++ argument ++ "' found"

/-- What the arguments ask for. -/
inductive Command where
  | run (options : Options)
  | help

/-- Whether an argument is an option; a single dash is not. -/
def isOption (argument : String) : Bool :=
  match argument.toList with
  | '-' :: _ :: _ => true
  | _ => false

/-- Takes an argument as the program file, of which there is at most one. -/
def withInput (options : Options) (argument : String) : Except UsageError Options :=
  if argument = "" then .error (.missingValue "[INPUT]")
  else
    match options.input with
    | some _ => .error (.unexpectedInput argument)
    | none => .ok { options with input := some argument }

/-- Takes an argument as the file for the drawing, of which there is at most one. -/
def withDot (options : Options) (argument : String) : Except UsageError Options :=
  if argument = "" then .error (.missingValue "--dot <FILE>")
  else
    match options.dot with
    | some _ => .error (.repeated "--dot <FILE>")
    | none => .ok { options with dot := some argument }

/-- The part of a long option before an equals sign, and the value after one. -/
def splitValue (argument : String) : String × Option String :=
  let name := argument.toList.takeWhile (· != '=')
  match argument.toList.dropWhile (· != '=') with
  | [] => (argument, none)
  | _ :: value => (String.ofList name, some (String.ofList value))

/-- Takes a long option other than `--dot`, which has no value. -/
def withFlag (options : Options) (name : String) : Except UsageError Options :=
  if name = "--liveness" then
    if options.liveness then .error (.repeated name) else .ok { options with liveness := true }
  else if name = "--dump-rules" then
    if options.dumpRules then .error (.repeated name) else .ok { options with dumpRules := true }
  else if name = "--stats" then
    if options.stats then .error (.repeated name) else .ok { options with stats := true }
  else if name = "--verbose" then .ok { options with verbosity := options.verbosity + 1 }
  else .error (.unknown name)

/-- Whether a long option is known and takes no value. -/
def isFlag (name : String) : Bool :=
  ["--liveness", "--dump-rules", "--stats", "--verbose", "--help"].contains name

/-- Takes the letters of a short option; nothing is left to do once help is asked for. -/
def withLetters (options : Options) : List Char → Except UsageError (Option Options)
  | [] => .ok (some options)
  | 'v' :: rest => withLetters { options with verbosity := options.verbosity + 1 } rest
  | 'h' :: _ => .ok none
  | letter :: _ => .error (.unknown (String.ofList ['-', letter]))

/-- Takes every argument as the program file. -/
def parseInputs (options : Options) : List String → Except UsageError Command
  | [] => .ok (.run options)
  | argument :: rest => do parseInputs (← withInput options argument) rest

/-- Reads arguments from left to right, up to the first that is wrong. -/
def parseFrom (options : Options) : List String → Except UsageError Command
  | [] => .ok (.run options)
  | argument :: rest =>
      if argument = "--" then parseInputs options rest
      else if !isOption argument then do parseFrom (← withInput options argument) rest
      else
        match argument.toList with
        | '-' :: '-' :: _ =>
            match splitValue argument with
            | ("--dot", some value) => do parseFrom (← withDot options value) rest
            | ("--dot", none) =>
                match rest with
                | [] => .error (.missingValue "--dot <FILE>")
                | value :: rest =>
                    if isOption value then .error (.missingValue "--dot <FILE>")
                    else do parseFrom (← withDot options value) rest
            | ("--help", none) => .ok .help
            | (name, none) => do parseFrom (← withFlag options name) rest
            | (name, some _) =>
                if isFlag name then .error (.unexpectedValue name) else .error (.unknown name)
        | letters => do
            match ← withLetters options letters.tail with
            | some options => parseFrom options rest
            | none => .ok .help

/-- What the arguments of a run ask for. -/
def parse (arguments : List String) : Except UsageError Command :=
  parseFrom {} arguments

----------------------------------------------------------------------------------------------
-- Runs
----------------------------------------------------------------------------------------------

/-- Why a run ends without success. -/
inductive Failure where
  | compile (error : CompileError)
  /-- The system's own words for why a file could not be read or written. -/
  | system (reason : String)
  /-- The program is not UTF-8. -/
  | notText

def Failure.message : Failure → String
  | compile error =>
      if error.isInternal then "internal compiler error: " ++ error.message
      else "error: " ++ error.message
  | system reason => "error: " ++ reason
  | notText => "error: stream did not contain valid UTF-8"

/-- The program in a sequence of bytes. -/
def sourceOfBytes (bytes : ByteArray) : Except Failure String :=
  match String.fromUTF8? bytes with
  | some source => .ok source
  | none => .error .notText

/-- What a run prints, its exit code, and the drawing that it leaves in a file. -/
structure Outcome where
  stdout : String := ""
  stderr : String := ""
  code : Nat := 0
  dot : Option String := none

/-- What a compiled program prints, its drawing, and the session afterwards. -/
structure Product where
  listing : String
  drawing : String
  session : Session

/-- The liveness report of a procedure under its heading. -/
def livenessText (part : Section) (liveness : Liveness) : String :=
  "# liveness " ++ part.name.name ++ "\n" ++ liveness.report

/-- Compiles a program, and analyses its procedures where the options call for it. -/
def compile (options : Options) (source : String) : Except Failure Product :=
  match ({} : Session).compile source with
  | (.error error, _) => .error (.compile error)
  | (.ok assembly, session) =>
      if options.liveness || options.dot.isSome then
        let (analysed, session) := session.analyseAll assembly.procedures
        let reports :=
          if options.liveness then
            String.join (analysed.map fun (part, liveness) => livenessText part liveness)
          else ""
        .ok
          { listing := assembly.text ++ reports
            drawing := String.join (analysed.map fun (part, liveness) =>
              Dot.document liveness part.name.name)
            session }
      else .ok { listing := assembly.text, drawing := "", session }

/-- What is printed before the program is read. -/
def preamble (options : Options) : String :=
  if options.dumpRules then X64.rules.text else ""

/-- Whether a run reads a program: the rule tables can be printed without one. -/
def readsProgram (options : Options) : Bool :=
  !options.dumpRules || options.input.isSome

/-- The outcome of a run, given the program and how writing the drawing went. What was printed
before a failure stays printed.
-/
def run (options : Options) (source : Except Failure String) (written : Except Failure Unit)
    : Outcome :=
  if !readsProgram options then { stdout := preamble options }
  else
    match source.bind (compile options) with
    | .error failure =>
        { stdout := preamble options, stderr := failure.message ++ "\n", code := 1 }
    | .ok product =>
        let stdout := preamble options ++ product.listing
        let stderr := if options.stats then product.session.stats.text else ""
        match options.dot, written with
        | none, _ => { stdout, stderr }
        | some _, .ok _ => { stdout, stderr, dot := some product.drawing }
        | some _, .error failure => { stdout, stderr := failure.message ++ "\n", code := 1 }

end TreeTiling.CommandLine
