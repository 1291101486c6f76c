import ApuScore.CommandLine.Request
import ApuScore.CommandLine.Report
import ApuScore.CommandLine.FileName
import ApuScore.CommandLine.SystemFault
import ApuScore.Archive.Gzip
import ApuScore.Text.Table
/-
  Commands — what each request does, on any host.

  A `Host` gives access to files and streams in some monad, and unpacks gzip members.
  A command reads traces, prints lines and writes files, and ends well or with a
  `Failure`, a message and the chain of its causes.
-/

namespace ApuScore

/-- Files, streams and the decoder of packed files. -/
structure Host (m : Type → Type) where
  read : String → m (Except SystemFault Bytes)
  write : String → Bytes → m (Except SystemFault Unit)
  /-- Makes one directory. -/
  makeDir : String → m (Except SystemFault Unit)
  /-- Whether a name leads to a directory. -/
  isDir : String → m Bool
  /-- The full name of a file that exists. -/
  fullName? : String → m (Option String)
  /-- All that is left of the standard input. -/
  input : m (Except SystemFault Bytes)
  /-- A line for the standard output. -/
  print : String → m Unit
  /-- A line for the standard error stream. -/
  complain : String → m Unit
  /-- What the gzip member at the head of a byte string holds, or what is wrong with it. -/
  gunzip : Bytes → Except String Bytes

/-- Why a command failed, from the outside in. -/
structure Failure where
  message : String
  causes : List String := []
  deriving Repr

namespace Failure

def inline (f : Failure) : String := String.intercalate ": " (f.message :: f.causes)

/-- The lines of the causes, numbered if there are several. -/
def causeLines (f : Failure) : List String :=
  match f.causes with
  | [c] => ["    " ++ c]
  | causes => causes.zipIdx.map fun (c, i) => s!"    {i}: {c}"

def report (f : Failure) : List String :=
  let first := "Error: " ++ f.message
  if f.causes.isEmpty then [first] else first :: "" :: "Caused by:" :: f.causeLines

/-- A failure with `message` on top of `e`. -/
def atop (message : String) (e : Error) : Failure :=
  ⟨message, e.message :: e.cause?.toList⟩

end Failure

variable {m : Type → Type} [Monad m]

/-- A command on a host. -/
abbrev Action (m : Type → Type) := ExceptT Failure m

/-- The result of a system call, with `message` for its fault. -/
def orFail {α : Type} (message : String) : Except SystemFault α → Except Failure α
  | .ok a => .ok a
  | .error e => .error ⟨message, [e.text]⟩

/-- `bytes`, unpacked if they are a gzip member or must be one. -/
def Host.unpacked (h : Host m) (bytes : Bytes) (packed : Bool) (source : String) :
    Except Failure Bytes :=
  if !packed && !Gzip.magic.isPrefixOf bytes then .ok bytes
  else
    match h.gunzip bytes with
    | .ok b => .ok b
    | .error e => .error ⟨s!"failed to decompress {source}", [e]⟩

/-- Whether a file name says that the file is a gzip member. -/
def saysPacked (file : String) : Bool :=
  match FileName.extension? file with
  | some ext => ext.toList.map Char.toLower = "vgz".toList
  | none => false

/-- The trace in a file, or on the standard input. -/
def readTrace (h : Host m) (file : String) : m (Except Failure Bytes) := do
  if FileName.isStandardInput file then
    let got ← h.input
    return do
      let bytes ← orFail "failed to read from stdin" got
      h.unpacked bytes false "stdin"
  else
    let got ← h.read file
    return do
      let bytes ← orFail s!"failed to read input file: {file}" got
      h.unpacked bytes (saysPacked file) file

/-- The full name of a file, or its name as given. -/
def shownName (h : Host m) (file : String) : m String := do
  let full ← h.fullName? file
  return full.getD file

def writeOutput (h : Host m) (file : String) (bytes : Bytes) : m (Except Failure Unit) := do
  let done ← h.write file bytes
  return orFail s!"failed to write output file: {file}" done

/-- Prints the summary of each trace. A trace that does not decode is complained
about and passed over. -/
def info (h : Host m) (files : List String) : Action m Unit :=
  files.forM fun file => do
    let bytes ← ExceptT.mk (readTrace h file)
    let name ← ExceptT.lift (shownName h file)
    match (do return (← Trace.decode bytes, ← Header.read bytes)) with
    | .error e => h.complain s!"\"{name}\": decode error: {FormatError.message e}"
    | .ok (log, header) =>
      h.print s!"\"{name}\""
      (Table.lines (summaryRows header log)).forM fun line => h.print line

def Listing.lines (l : Listing) (log : RegisterLog) : Except ProtocolError (List String) :=
  match l with
  | .registers => .ok (log.map RegisterOp.line)
  | .params => (disassemble log).map (·.map ParamWrite.line)
  | .changes => (disassemble log >>= prune).map (·.map Change.line)

def dump (h : Host m) (file : String) (listing : Listing) : Action m Unit := do
  let bytes ← ExceptT.mk (readTrace h file)
  match Trace.decode bytes with
  | .error e => throw ⟨s!"failed to decode {file}", [e.message]⟩
  | .ok log =>
    match listing.lines log with
    | .error e => throw ⟨e.message, []⟩
    | .ok lines => lines.forM fun line => h.print line

def simplify (h : Host m) (input output : String) (options : CleaningOptions) :
    Action m Unit := do
  let bytes ← ExceptT.mk (readTrace h input)
  match Trace.clean options bytes with
  | .error e => throw ⟨s!"failed to simplify {input}", [e.message]⟩
  | .ok (cleaned, removed) =>
    ExceptT.mk (writeOutput h output cleaned)
    let sizes := s!"({bytes.length} -> {cleaned.length} bytes)"
    h.print s!"{input} -> {output}: removed {removed} commands {sizes}"

def shorten (h : Host m) (input output : String) (count start : Nat) : Action m Unit := do
  let bytes ← ExceptT.mk (readTrace h input)
  match Trace.excerpt bytes count start with
  | .error e => throw (Failure.atop s!"failed to shorten {input}" e)
  | .ok cut => ExceptT.mk (writeOutput h output cut)

/-- Makes a directory unless it is there. -/
def ensureDir (h : Host m) (name : String) : m (Except SystemFault Unit) := do
  match ← h.makeDir name with
  | .ok () => return .ok ()
  | .error e =>
    if ← h.isDir name then return .ok ()
    else return .error e

/-- Makes a directory, and those above it as far as they are missing. -/
def makeDirs (h : Host m) (name : String) : List String → m (Except SystemFault Unit)
  | [] => ensureDir h name
  | dir :: above => do
    match ← ensureDir h name with
    | .error .notFound =>
      match ← makeDirs h dir above with
      | .ok () => ensureDir h name
      | .error e => return .error e
    | made => return made

/-- Sends one trace through a form; the row of the table, unless it failed. -/
def cycleFile (h : Host m) (form : Form) (outDir : Option String) (file : String) :
    m (Option (List String)) := do
  let name ← shownName h file
  match ← readTrace h file with
  | .error f =>
    h.complain s!"\"{name}\": {f.inline}"
    return none
  | .ok bytes =>
    match roundTrip bytes form {} with
    | .error e =>
      h.complain s!"\"{name}\": {e.message}"
      return none
    | .ok back =>
      if let some dir := outDir then
        let stem := (FileName.stem? file).getD "stdin"
        let target := FileName.join dir s!"{stem}.{form.name}.vgm"
        if let .error e ← h.write target back then
          h.complain s!"\"{name}\": failed to write {target}: {e.text}"
      let same := if back = bytes then "yes" else "no"
      return some [file, form.name, s!"{bytes.length}", s!"{back.length}", same]

/-- Sends traces through a form and prints how the results compare. -/
def cycle (h : Host m) (files : List String) (form : Form) (outDir : Option String) :
    Action m Unit := do
  if let some dir := outDir then
    let made ← ExceptT.lift (makeDirs h dir (FileName.above dir))
    ExceptT.mk (pure (orFail s!"failed to create output dir: {dir}" made))
  let rows ← ExceptT.lift (files.mapM (cycleFile h form outDir))
  let header := ["File", "Through", "Bytes in", "Bytes out", "Identical"]
  (Table.lines (header :: rows.filterMap id)).forM fun line => h.print line

def perform (h : Host m) : Request → Action m Unit
  | .info files => info h files
  | .dump file listing => dump h file listing
  | .simplify input output options => simplify h input output options
  | .shorten input output count start => shorten h input output count start
  | .cycle files form outDir => cycle h files form outDir

/-- Performs a command line and gives its exit code: 2 for what is no request, 1
for a failure, else 0. -/
def runCommand (h : Host m) (args : List String) : m Nat := do
  match Request.ofArguments? args with
  | none =>
    h.complain "usage: info FILE... | dump FILE | simplify IN OUT | shorten IN OUT | cycle FILE..."
    return 2
  | some request =>
    match ← (perform h request).run with
    | .ok () => return 0
    | .error f =>
      f.report.forM fun line => h.complain line
      return 1

end ApuScore
