/-!
# Names of units, classes and methods

* `unitNameOfPath`: a unit is named after its file, without the extension;
* `unitClassName`: the class that holds the functions of a unit;
* `uniqueMethod`, `uniqueMethods`: method names that no other function of the class has.
-/

namespace StackCompiler

/-- Blanks between slashes are skipped, and so are dots, except one that the path starts with. -/
def pathParts (path : String) : List String :=
  match path.splitOn "/" with
  | "." :: rest => "." :: rest.filter fun part => part != "" && part != "."
  | parts => parts.filter fun part => part != "" && part != "."

/-- The file name that a path ends in. -/
def fileName? (path : String) : Option String :=
  match (pathParts path).getLast? with
  | none | some "." | some ".." => none
  | some name => some name

/-- A file name up to its last dot. -/
def fileStem (name : String) : String :=
  let reversed := name.toList.reverse
  match reversed.dropWhile (· != '.') with
  | [] | [_] => name
  | _ :: before => String.ofList before.reverse

def unitNameOfPath (path : String) : String :=
  match fileName? path with
  | some name => fileStem name
  | none => "unit"

/-- Characters that the name of a class can have. -/
def isClassNameChar (c : Char) : Bool := c.isAlphanum || c == '_' || c == '$'

/-- Other characters become underscores, and a digit in front gets one before it. -/
def unitClassName (unitName : String) : String :=
  match unitName.toList.map fun c => if isClassNameChar c then c else '_' with
  | [] => "Unit"
  | first :: rest =>
    if first.isDigit then String.ofList ('_' :: first :: rest) else String.ofList (first :: rest)

def recordClassName (owner name : String) : String := owner ++ "$" ++ name

/-! ## Methods -/

/-- The method names that every class already uses. -/
def reservedMethods : List String := ["main"]

/-- The name that is tried after some were taken. -/
def methodCandidate (base : String) : Nat → String
  | 0 => base
  | n + 1 => base ++ "$" ++ toString (n + 1)

/-- The first free candidate from a number on. -/
def firstFree (taken : List String) (base : String) : (fuel n : Nat) → String
  | 0, n => methodCandidate base n
  | fuel + 1, n =>
    if taken.contains (methodCandidate base n) then firstFree taken base fuel (n + 1)
    else methodCandidate base n

/-- The first free candidate. Candidates differ, so that one more than there are taken names
suffice. -/
def uniqueMethod (taken : List String) (base : String) : String :=
  firstFree taken base taken.length 0

def uniqueMethods (taken : List String) : List String → List String
  | [] => []
  | base :: rest =>
    let method := uniqueMethod taken base
    method :: uniqueMethods (method :: taken) rest

end StackCompiler
