import ApuScore.CommandLine.Host
/-
  The program — commands on the real system.
-/

namespace ApuScore

/-- The number of a fault, which some calls give negated in 32 bits. -/
def faultCode : IO.Error → Nat
  | .noFileOrDirectory _ n _ | .alreadyExists _ n _ | .permissionDenied _ n _
  | .inappropriateType _ n _ | .invalidArgument _ n _ | .resourceExhausted _ n _
  | .otherError n _ => if n < 0x80000000 then n.toNat else (0 - n).toNat
  | _ => 0

def faultOf (e : IO.Error) : SystemFault :=
  (SystemFault.ofCode? (faultCode e)).getD (.other (toString e))

def guarded {α : Type} (act : IO α) : IO (Except SystemFault α) :=
  try
    let a ← act
    return .ok a
  catch e => return .error (faultOf e)

/-- All that is left of a stream, behind what was read. -/
partial def readRest (stream : IO.FS.Stream) (found : ByteArray) : IO ByteArray := do
  let more ← stream.read 65536
  if more.isEmpty then return found else readRest stream (found ++ more)

def system : Host IO where
  read name := guarded do
    let bytes ← IO.FS.readBinFile name
    return bytes.toList
  write name bytes := guarded do
    let file ← IO.FS.Handle.mk name .write
    file.write (ByteArray.mk bytes.toArray)
    file.flush
  makeDir name := guarded (IO.FS.createDir name)
  isDir name := do
    match ← guarded (IO.FS.realPath name) with
    | .ok full => full.isDir
    | .error _ => return false
  fullName? name := do
    match ← guarded (IO.FS.realPath name) with
    | .ok full => return some full.toString
    | .error _ => return none
  input := guarded do
    let bytes ← readRest (← IO.getStdin) ByteArray.empty
    return bytes.toList
  print line := IO.println line
  complain line := IO.eprintln line
  gunzip := Gzip.unpack

end ApuScore

/-- Performs the command line and exits with its code. -/
def main (args : List String) : IO UInt32 := do
  let code ← ApuScore.runCommand ApuScore.system args
  return UInt32.ofNat code
