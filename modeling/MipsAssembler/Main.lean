import MipsAssembler.CommandLine
/-!
The program: looks up the files a command line names, runs it, and writes back the files it changed.
-/

namespace MipsAssembler.Program

/-- Adds what the disk has at a path. What cannot be read although it is there counts as a folder. -/
def look (d : Directory) (path : Path) : IO Directory := do
  if (d.find? path.dropLast).isSome then return d
  try
    let content ← IO.FS.readBinFile path.text
    return d.put path content.toList
  catch
    | .noFileOrDirectory .. => return d
    | _ => return d.putFolder path

/-- The part of the disk that a file name passes through. -/
def lookAlong (d : Directory) (name : String) : IO Directory :=
  if '\x00' ∈ name.toList then return d
  else (Path.trail [] (Directory.steps name)).foldlM look d

/-- Writes the files of `after` that are not in `before`. -/
def store (before after : Directory) : IO Unit :=
  for f in after.files do
    if before.find? f.path ≠ some f.content then
      IO.FS.writeBinFile f.path.text (ByteArray.mk f.content.toArray)

/-- Runs a command line on the disk; the answer is the exit code. -/
def run (args : List String) : IO UInt32 := do
  let before ← (CommandLine.fileNames args).foldlM lookAlong {}
  let outcome := CommandLine.run args before
  IO.print outcome.stdout
  IO.eprint outcome.stderr
  store before outcome.files
  return UInt32.ofNat outcome.exitCode

end MipsAssembler.Program

def main (args : List String) : IO UInt32 := MipsAssembler.Program.run args
