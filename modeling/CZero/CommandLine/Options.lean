import CZero.Report

/-!
# Command line options

    c0c [--tokens] [--dump-symbols] [--dump-instructions] [--emit-json] [-v | --verbose] INPUT [OUTPUT]

Arguments are understood one by one from left to right, and the first that is wrong decides. After `--`
every argument is a path. Each flag may be given once; short flags may share one dash.
-/

namespace CZero

/-- The switches of the command line. -/
inductive Flag where
  | tokens | dumpSymbols | dumpInstructions | emitJson | verbose | help | version
deriving DecidableEq

namespace Flag

/-- The flag with the given long name. -/
def ofLong? (name : String) : Option Flag :=
  if name = "tokens" then some .tokens
  else if name = "dump-symbols" then some .dumpSymbols
  else if name = "dump-instructions" then some .dumpInstructions
  else if name = "emit-json" then some .emitJson
  else if name = "verbose" then some .verbose
  else if name = "help" then some .help
  else if name = "version" then some .version
  else none

/-- The flag with the given letter. -/
def ofShort? : Char → Option Flag
  | 'v' => some .verbose
  | 'h' => some .help
  | 'V' => some .version
  | _ => none

end Flag

/-- Why there is nothing to compile. -/
inductive UsageError where
  /-- There is no input path. -/
  | missingInput
  /-- A flag is unknown, or there are more than two paths. -/
  | unknownArgument
  /-- A flag is given twice. -/
  | repeatedFlag
  /-- A flag has a value. -/
  | unexpectedValue
  /-- A path is empty. -/
  | emptyPath
  /-- Help was asked for. -/
  | help
  /-- The version was asked for. -/
  | version
deriving DecidableEq

/-- A complete command line. -/
structure Options where
  input : String
  output : Option String
  listings : Listings
  verbose : Bool
deriving DecidableEq

namespace Options

/-- What was understood so far. -/
structure Partial where
  paths : List String
  flags : List Flag

/-- The paths have to be there. This is found out when the next argument is understood. -/
def Partial.check (p : Partial) : Except UsageError Unit :=
  if "" ∈ p.paths then .error .emptyPath else .ok ()

/-- Understands a flag. -/
def Partial.addFlag (p : Partial) (f : Flag) : Except UsageError Partial := do
  p.check
  match f with
  | .help => throw .help
  | .version => throw .version
  | f =>
    if f ∈ p.flags then throw .repeatedFlag
    return { p with flags := f :: p.flags }

/-- Understands a path. -/
def Partial.addPath (p : Partial) (path : String) : Except UsageError Partial := do
  if 2 ≤ p.paths.length then throw .unknownArgument
  p.check
  return { p with paths := p.paths ++ [path] }

/-- Understands letters behind one dash. -/
def Partial.addShorts (p : Partial) : List Char → Except UsageError Partial
  | [] => .ok p
  | c :: cs => do
    match Flag.ofShort? c with
    | some f => (← p.addFlag f).addShorts cs
    | none => throw .unknownArgument

/-- Understands what stands behind two dashes. -/
def Partial.addLong (p : Partial) (text : List Char) : Except UsageError Partial :=
  let name := text.takeWhile (· != '=')
  match Flag.ofLong? (String.ofList name) with
  | none => .error .unknownArgument
  | some f => if name.length < text.length then .error .unexpectedValue else p.addFlag f

/-- Understands arguments; `pathsOnly` tells that `--` is behind. -/
def Partial.addAll (p : Partial) (pathsOnly : Bool) : List String → Except UsageError Partial
  | [] => .ok p
  | a :: as => do
    if pathsOnly then (← p.addPath a).addAll true as
    else
      match a.toList with
      | ['-', '-'] => p.addAll true as
      | '-' :: '-' :: text => (← p.addLong text).addAll false as
      | '-' :: c :: cs => (← p.addShorts (c :: cs)).addAll false as
      | _ => (← p.addPath a).addAll false as

/-- The options that the arguments after the program's name give. -/
def ofArguments (arguments : List String) : Except UsageError Options := do
  let p ← Partial.addAll ⟨[], []⟩ false arguments
  p.check
  match p.paths with
  | [] => throw .missingInput
  | input :: rest =>
    return {
      input
      output := rest.head?
      listings := {
        tokens := .tokens ∈ p.flags
        symbols := .dumpSymbols ∈ p.flags
        instructions := .dumpInstructions ∈ p.flags
        json := .emitJson ∈ p.flags }
      verbose := .verbose ∈ p.flags }

/-- What is logged at least. -/
def logFilter (o : Options) : String :=
  if o.verbose then "debug" else "warn"

end Options

end CZero
