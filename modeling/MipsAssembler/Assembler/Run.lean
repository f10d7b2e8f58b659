import MipsAssembler.Assembler.Pass
/-!
A whole run: open the files, run both passes, write what they produced and print a summary.

Output is kept in the streams while the passes run and put into the files when they are closed. Both files are
emptied when they are opened, so a source named as an output is read as empty.
-/

namespace MipsAssembler.Assembler

def printSummary (a : Assembler) : Assembler :=
  (((a.print "\n--- Assembly Summary ---\n").complain a.errors.details).print a.errors.total).print
    "--- End Summary ---\n"

/-- Opens the listing: the console, or a file with its path. -/
def openListing (a : Assembler) : Except OpenError (Assembler × Stream × Option Path) :=
  match a.listingName with
  | none => .ok (a, { medium := .console }, none)
  | some name =>
    if name = "" then .ok (a, { medium := .console }, none)
    else (a.files.create name).map fun (files, path) => ({ a with files }, { medium := .file }, some path)

/-- Puts what was written into the files: first the listing, then the machine code. Texts are stored as UTF-8, the
encoding in which sources are read, and storing does not fail. -/
def storeOutput (a : Assembler) (listingPath : Option Path) (binaryPath : Path) : Assembler :=
  match a.output with
  | none => a
  | some o =>
    let files := match listingPath with
      | none => a.files
      | some path => a.files.overwrite path (Utf8.bytes o.listingText)
    { a with files := files.overwrite binaryPath (Utf8.bytes o.binaryText) }

def flushOutput (a : Assembler) : Assembler := a.complain ((a.output.map Output.flushComplaints).getD "")

def closeOutput (a : Assembler) : Assembler := { a with output := a.output.map Output.closeFiles }

/-- Both passes; the answer is whether both succeed. -/
def runPasses (a : Assembler) : Assembler × Except Fault Bool :=
  match (a.print "\n--- Starting Pass 1 ---\n").runPass .scan with
  | (a, .error e) => (a, .error e)
  | (a, .ok false) => (a.print "Assembly failed in Pass 1.\n", .ok false)
  | (a, .ok true) =>
    let a := (a.print "--- Pass 1 Complete ---\n").note a.symbols.dump
    match (a.print "\n--- Starting Pass 2 ---\n").runPass .encode with
    | (a, .error e) => (a, .error e)
    | (a, .ok false) => (a.print "Assembly failed in Pass 2.\n", .ok false)
    | (a, .ok true) =>
      let words := (a.output.map (·.wordsWritten)).getD 0
      (a.print ("--- Pass 2 Complete ---\nAssembly finished successfully. " ++ Text.decimalNat words
        ++ " instruction(s) written.\n"), .ok true)

/-- What an output file that does not open does to a run. A name with a NUL is a fault, anything else an error. -/
def refuseOutput (a : Assembler) (what name : String) (e : OpenError) : Assembler × Except Fault Bool :=
  match e with
  | .nulInName => (a, .error .nulInName)
  | e => (a.recordIo ("Cannot open " ++ what ++ " file '" ++ name ++ "': " ++ e.message name) none, .ok false)

/-- The part of a run behind the check of the source, up to the closed files. -/
def writeOutput (a : Assembler) : Assembler × Except Fault Bool :=
  match a.openListing with
  | .error e =>
    let (a, answer) := a.refuseOutput "listing" (a.listingName.getD "") e
    (a.flushOutput, answer)
  | .ok (a, listing, listingPath) =>
    match a.files.create a.binaryName with
    | .error e =>
      let (a, answer) := a.refuseOutput "binary" a.binaryName e
      (a.flushOutput, answer)
    | .ok (files, binaryPath) =>
      let a := { a with files, output := some { listing := some listing, binary := some { medium := .file } } }
      let (a, answer) := a.runPasses
      ((a.flushOutput.storeOutput listingPath binaryPath).closeOutput, answer)

/-- A whole run; the answer is whether the source was assembled. -/
def assemble (a : Assembler) : Assembler × Except Fault Bool :=
  let a := a.print ("Starting assembly for: " ++ a.sourceName ++ "\n")
  match a.files.read a.sourceName with
  | .error .nulInName => (a, .error .nulInName)
  | .error .noSuchFile =>
    ((a.recordIo ("Input file not found: " ++ a.sourceName) none).printSummary, .ok false)
  | .error e =>
    ((a.recordIo ("Error reading input file: " ++ e.message a.sourceName) none).printSummary, .ok false)
  | .ok _ =>
    let (a, answer) := a.writeOutput
    (a.printSummary, answer)

end MipsAssembler.Assembler
