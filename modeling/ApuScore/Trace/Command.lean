import ApuScore.Log.Write
/-
  Trace commands — the bytes that a step of a register log is written as.

    61 nn nn                 wait nnnn samples
    62, 63                   wait 735 or 882 samples, a video frame
    7n                       wait n + 1 samples
    66                       the end
    67 66 tt ss ss ss ss ..  a data block of kind tt with ssssssss bytes
    B4 rr vv                 write vv to register rr

  `Command.read` reads the command at the head of the rest of a trace and says
  how many bytes it took; `Step.bytes` writes one. A long wait takes several
  commands, and a wait of zero is written too, since it parts the writes around
  it.
-/

namespace ApuScore

/-- A command: a step, or the end of the commands. -/
inductive Command where
  | step (s : Step RegisterOp)
  | stop
  deriving DecidableEq, Repr

/-- The first `len` bytes of `rest`, which lies at `off`, read for `what`. -/
def takeWindow (what : String) (off len : Nat) (rest : Bytes) : Except FormatError Bytes :=
  let head := rest.take len
  if head.length = len then .ok head else .error (.outOfRange what off len rest.length)

/-- The longest wait that one command carries. -/
def longestWait : Nat := 0xFFFF

namespace Command

/-- Refuses a data block at `off` that does not carry the marker byte. -/
def checkMark (off : Nat) (mark : Bytes) : Except FormatError Unit :=
  if mark = [0x66] then .ok () else .error (.malformedBlock off)

/-- The data block whose opcode is at `off`, with its length; `rest` follows the
opcode. -/
def readBlock (off : Nat) (rest : Bytes) : Except FormatError (Command × Nat) := do
  let mark ← takeWindow "data_block" (off + 1) 1 rest
  checkMark off mark
  let kind ← takeWindow "data_block" (off + 2) 1 (rest.drop 1)
  let size ← takeWindow "data_block" (off + 3) 4 (rest.drop 2)
  let payload ← takeWindow "data_block" (off + 7) (Bytes.ofLe size) (rest.drop 6)
  return (.step (.act (.data (kind.headD 0) payload)), 7 + Bytes.ofLe size)

/-- The command at the head of `bytes`, which lie at `off`, with its length. -/
def read (off : Nat) : Bytes → Except FormatError (Command × Nat)
  | [] => .error (.outOfRange "command" off 1 0)
  | op :: rest =>
    if op = 0x61 then do
      let n ← takeWindow "wait" (off + 1) 2 rest
      return (.step (.wait (Bytes.ofLe n)), 3)
    else if op = 0x62 then .ok (.step (.wait 735), 1)
    else if op = 0x63 then .ok (.step (.wait 882), 1)
    else if op = 0x66 then .ok (.stop, 1)
    else if op = 0x67 then readBlock off rest
    else if 0x70 ≤ op ∧ op ≤ 0x7F then .ok (.step (.wait (op.toNat - 0x70 + 1)), 1)
    else if op = 0xB4 then do
      let args ← takeWindow "apu_write" (off + 1) 2 rest
      return (.step (.act (.write (args.headD 0) (args.getD 1 0))), 3)
    else .error (.unknownOpcode op off)

end Command

/-- The waits of at most `longestWait` that a wait of `n` samples is written as. -/
def waitPieces (n : Nat) : List Nat :=
  let full := (n - 1) / longestWait
  List.replicate full longestWait ++ [n - full * longestWait]

/-- The command of a wait of at most `longestWait` samples. -/
def waitBytes (n : Nat) : Bytes := 0x61 :: Bytes.le 2 n

def Step.bytes : Step RegisterOp → Bytes
  | .wait n => (waitPieces n).flatMap waitBytes
  | .act (.write register value) => [0xB4, register, value]
  | .act (.data kind payload) =>
    0x67 :: 0x66 :: kind :: Bytes.le 4 payload.length ++ payload

end ApuScore
