import MipsAssembler.Listing
/-!
The two texts a run writes: the listing and the machine code, each on a stream that may be closed.

A stream that is open takes every text. A disk that is full, a file that goes away and a console whose encoding lacks a
character are left out, here and wherever something is printed.
-/

namespace MipsAssembler

inductive Medium where
  | memory
  | file
  | console
deriving DecidableEq

structure Stream where
  medium : Medium := .memory
  /-- What was written so far. -/
  text : String := ""
  isOpen : Bool := true
deriving DecidableEq

namespace Stream

def closedFault (s : Stream) : Fault :=
  match s.medium with
  | .memory => .bufferClosed
  | .file | .console => .fileClosed

/-- Nothing but having been closed keeps a stream from taking a text. -/
def write (s : Stream) (t : String) : Except Fault Stream :=
  if s.isOpen then .ok { s with text := s.text ++ t } else .error s.closedFault

def close (s : Stream) : Stream := { s with isOpen := false }

/-- The complaint of a flush, which goes to the error stream. -/
def flushComplaint (s : Stream) : String := if s.isOpen then "" else "Error flushing output file.\n"

end Stream

/-- A missing stream takes no text and gives no fault. -/
structure Output where
  listing : Option Stream := some {}
  binary : Option Stream := some {}
  /-- Words written to the machine code. -/
  wordsWritten : Nat := 0
deriving DecidableEq

namespace Output

def writeListing (o : Output) (t : String) : Except Fault Output :=
  match o.listing with
  | none => .ok o
  | some s => (s.write t).map fun s => { o with listing := some s }

/-- One word on a line of its own. -/
def wordLine (w : Int) : String := Text.word w ++ "\n"

def writeWord (o : Output) (w : Int) : Except Fault Output :=
  match o.binary with
  | none => .ok o
  | some s => (s.write (wordLine w)).map fun s => { o with binary := some s, wordsWritten := o.wordsWritten + 1 }

def flushComplaints (o : Output) : String :=
  ((o.listing.map Stream.flushComplaint).getD "") ++ ((o.binary.map Stream.flushComplaint).getD "")

/-- The console stays open. -/
def closeFiles (o : Output) : Output :=
  { o with
    listing := o.listing.map fun s => if s.medium = .console then s else s.close
    binary := o.binary.map Stream.close }

def listingText (o : Output) : String := (o.listing.map (·.text)).getD ""

def binaryText (o : Output) : String := (o.binary.map (·.text)).getD ""

/-- Whether the listing is shown on the console. -/
def listsOnConsole (o : Output) : Bool := o.listing.any (·.medium = .console)

end Output

end MipsAssembler
