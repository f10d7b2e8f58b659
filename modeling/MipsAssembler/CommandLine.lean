import MipsAssembler.Assembler.Run
import MipsAssembler.CommandLine.Request
/-!
Running a command line on a directory: help, a complaint about misuse, or a run of the assembler.
-/

namespace MipsAssembler.CommandLine

def usage : String := "usage: mipsasm [-h] [-l LISTING] [-o OUTPUT] [-d] [input_file]\n"

def helpText : String :=
  usage
    ++ "\n"
    ++ "MIPS Assembler v1.0.0\n"
    ++ "\n"
    ++ "positional arguments:\n"
    ++ "  input_file            MIPS source file to assemble (defaults to\n"
    ++ "                        'assembly.in').\n"
    ++ "\n"
    ++ "options:\n"
    ++ "  -h, --help            show this help message and exit\n"
    ++ "  -l LISTING, --listing LISTING\n"
    ++ "                        Output listing file name (defaults to 'listing.out',\n"
    ++ "                        '-' for stdout).\n"
    ++ "  -o OUTPUT, --output OUTPUT\n"
    ++ "                        Output machine code file name (defaults to\n"
    ++ "                        'instructions.out').\n"
    ++ "  -d, --debug           Enable debug mode.\n"

/-- What a run leaves behind. -/
structure Outcome where
  exitCode : Nat
  stdout : String
  stderr : String
  files : Directory

/-- A listing named `-` goes to the console. -/
def Settings.assembler (st : Settings) (files : Directory) : Assembler :=
  Assembler.new files st.source (if st.listing = "-" then none else some st.listing) st.output st.debug

/-- The files that a run opens. -/
def Settings.fileNames (st : Settings) : List String :=
  let a := st.assembler {}
  [a.sourceName, a.listingName.getD "", a.binaryName].filter (· ≠ "")

def Settings.run (st : Settings) (files : Directory) : Outcome :=
  let (a, answer) := (st.assembler files).assemble
  let (a, exitCode) := match answer with
    | .ok true => (a, 0)
    | .ok false => (a, 1)
    | .error e => (a.print ("CRITICAL UNHANDLED ERROR: " ++ e.message ++ "\n"), 1)
  let a := a.print "Done.\n"
  { exitCode, stdout := a.stdout, stderr := a.stderr, files := a.files }

def run (args : List String) (files : Directory) : Outcome :=
  match parse args with
  | .help => { exitCode := 0, stdout := helpText, stderr := "", files }
  | .misuse problem =>
    { exitCode := 2, stdout := "", stderr := usage ++ "mipsasm: error: " ++ problem.message ++ "\n", files }
  | .assemble settings => settings.run files

/-- The files that a command line asks for. -/
def fileNames (args : List String) : List String :=
  match parse args with
  | .assemble settings => settings.fileNames
  | .help | .misuse _ => []

end MipsAssembler.CommandLine
