/-
  Faults of the system, each with its number and its text.
-/

namespace ApuScore

/-- Why the system refuses a call. -/
inductive SystemFault where
  | notFound
  | permissionDenied
  | alreadyExists
  | notDirectory
  | isDirectory
  | noSpace
  | nameTooLong
  /-- A fault without a name of its own. -/
  | other (text : String)
  deriving DecidableEq, Repr

namespace SystemFault

def named : List SystemFault :=
  [.notFound, .permissionDenied, .alreadyExists, .notDirectory, .isDirectory, .noSpace,
   .nameTooLong]

def code : SystemFault → Nat
  | .notFound => 2
  | .permissionDenied => 13
  | .alreadyExists => 17
  | .notDirectory => 20
  | .isDirectory => 21
  | .noSpace => 28
  | .nameTooLong => 36
  | .other _ => 0

def description : SystemFault → String
  | .notFound => "No such file or directory"
  | .permissionDenied => "Permission denied"
  | .alreadyExists => "File exists"
  | .notDirectory => "Not a directory"
  | .isDirectory => "Is a directory"
  | .noSpace => "No space left on device"
  | .nameTooLong => "File name too long"
  | .other text => text

/-- The text of a fault; a named one ends in its number. -/
def text (f : SystemFault) : String :=
  if f.code = 0 then f.description else s!"{f.description} (os error {f.code})"

def ofCode? (n : Nat) : Option SystemFault := named.find? fun f => f.code = n

/-- A named fault is found by its number. -/
theorem ofCode?_code : ∀ f ∈ named, ofCode? f.code = some f := by decide

end SystemFault

end ApuScore
