/-
  File names as they are given on the command line.

  Parts are what stands between slashes; empty parts and single dots do not
  count. The last part splits at its last dot into stem and extension, unless the
  dot comes first.
-/

namespace ApuScore.FileName

def parts (name : String) : List String :=
  (name.splitOn "/").filter fun p => p ≠ "" ∧ p ≠ "."

/-- Whether the name stands for the standard input. -/
def isStandardInput (name : String) : Bool := parts name = ["-"] && name.startsWith "-"

/-- The last part, unless it leads upwards. -/
def last? (name : String) : Option String :=
  match (parts name).getLast? with
  | some ".." => none
  | p => p

/-- Stem and extension of a part. -/
def split (part : List Char) : List Char × Option (List Char) :=
  let ext := (part.reverse.takeWhile (· ≠ '.')).reverse
  let stem := part.take (part.length - ext.length - 1)
  if stem.isEmpty then (part, none) else (stem, some ext)

def stem? (name : String) : Option String :=
  (last? name).map fun p => String.ofList (split p.toList).1

/-- The extension of the last part. -/
def extension? (name : String) : Option String :=
  (last? name).bind fun p => (split p.toList).2.map String.ofList

/-- The names of the directories above a name, nearest first. -/
def above (name : String) : List String :=
  let top := if name.startsWith "/" then "/" else ""
  let ps := parts name
  (List.range' 1 (ps.length - 1)).reverse.map fun n => top ++ String.intercalate "/" (ps.take n)

def join (dir name : String) : String :=
  if dir.endsWith "/" then dir ++ name else dir ++ "/" ++ name

end ApuScore.FileName
