import MipsAssembler.Directory
import MipsAssembler.ErrorLog
import MipsAssembler.Output
import MipsAssembler.Progress
/-!
The assembler's state and the small steps everything else is made of: printing, recording an error, writing to the
output.
-/

namespace MipsAssembler

def defaultSourceName : String := "assembly.in"

def defaultListingName : String := "listing.out"

def defaultBinaryName : String := "instructions.out"

structure Assembler where
  sourceName : String
  /-- The listing goes to the console when there is no name or an empty one. -/
  listingName : Option String
  binaryName : String
  /-- Whether each step is reported on the console. -/
  debug : Bool := false
  files : Directory := {}
  errors : ErrorLog := []
  symbols : SymbolTable := {}
  progress : Progress := {}
  output : Option Output := none
  /-- What was printed on the output stream. -/
  stdout : String := ""
  /-- What was printed on the error stream. -/
  stderr : String := ""

namespace Assembler

/-- An assembler that has done nothing yet. An empty name for the machine code stands for the default. -/
def new (files : Directory) (sourceName : String) (listingName : Option String) (binaryName : String)
    (debug : Bool) : Assembler :=
  { sourceName, listingName, debug, files
    binaryName := if binaryName = "" then defaultBinaryName else binaryName }

/-- The console takes every text, whatever its encoding. -/
def print (a : Assembler) (t : String) : Assembler := { a with stdout := a.stdout ++ t }

def complain (a : Assembler) (t : String) : Assembler := { a with stderr := a.stderr ++ t }

/-- Prints in debug mode only. -/
def note (a : Assembler) (t : String) : Assembler := if a.debug then a.print t else a

def record (a : Assembler) (e : ErrorRecord) : Assembler := { a with errors := a.errors ++ [e] }

/-- Records an error outside of the source. -/
def recordIo (a : Assembler) (message : String) (line : Option Int) : Assembler :=
  a.record { message, line, code := Kind.io.code }

def hasErrors (a : Assembler) : Bool := !a.errors.isEmpty

def finish (a : Assembler) : Assembler := { a with progress := a.progress.finish }

/-- Adds to the listing, which is also what the console shows if it goes there. -/
def list (a : Assembler) (t : String) : Except Fault Assembler :=
  match a.output with
  | none => .error .noOutput
  | some o =>
    (o.writeListing t).map fun o' =>
      let a := { a with output := some o' }
      if o.listsOnConsole then a.print t else a

/-- Adds a word to the machine code. -/
def emit (a : Assembler) (w : Int) : Except Fault Assembler :=
  match a.output with
  | none => .error .noOutput
  | some o => (o.writeWord w).map fun o => { a with output := some o }

/-- Passes over one instruction. -/
def advance (a : Assembler) : Assembler :=
  { a with progress := a.progress.advance }.note a.progress.advanceTrace

def freeze (a : Assembler) : Assembler := { a with symbols := a.symbols.freeze }.note a.symbols.freezeTrace

end Assembler

end MipsAssembler
