import CZero.CommandLine.Build

/-!
# The program

Reads the source, prints the report and writes the image. Everything but the files is decided
elsewhere.
-/

namespace CZero

/-- What `--help` prints. -/
def usage : String :=
  "c0c - compile a C0 source file to a bytecode module\n\n"
    ++ "Usage: c0c [OPTIONS] <INPUT> [OUTPUT]\n\n"
    ++ "Options:\n"
    ++ "      --tokens             Print the token stream and stop\n"
    ++ "      --dump-symbols       Print the symbol table after analysis\n"
    ++ "      --dump-instructions  Print the global and function tables\n"
    ++ "      --emit-json          Print the encoded module as JSON\n"
    ++ "  -v, --verbose            Enable debug logging\n"
    ++ "  -h, --help               Print help\n"
    ++ "  -V, --version            Print version\n"

/-- What is said about wrong arguments. -/
def UsageError.message : UsageError → String
  | .missingInput => "the input file is missing"
  | .unknownArgument => "there is an unexpected argument"
  | .repeatedFlag => "a flag is given more than once"
  | .unexpectedValue => "a flag takes no value"
  | .emptyPath => "a path is empty"
  | .help => usage
  | .version => "c0c 0.1.0\n"

/-- The files of the system. -/
def systemFiles : Files IO where
  read? path := do
    try
      let bytes ← IO.FS.readBinFile path
      return some bytes.toList
    catch _ => return none
  write path content := do
    try
      IO.FS.writeBinFile path ⟨content.toArray⟩
      return true
    catch _ => return false

end CZero

def main (arguments : List String) : IO UInt32 := do
  match CZero.Options.ofArguments arguments with
  | .ok o =>
    match ← o.build CZero.systemFiles with
    | .ok built =>
      IO.print built.report
      return 0
    | .error e =>
      IO.eprintln ("error: " ++ e.message)
      return 1
  | .error e =>
    match e with
    | .help | .version =>
      IO.print e.message
      return 0
    | e =>
      IO.eprintln ("error: " ++ e.message)
      return 2
