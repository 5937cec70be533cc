import StackCompiler.ClassFile

/-!
# Listings

Classes for the eye, with the position of every instruction.
-/

namespace StackCompiler

def indentLine (level : Nat) (text : String) : String :=
  String.ofList (List.replicate (2 * level) ' ') ++ text ++ "\n"

def padLeft (width n : Nat) : String :=
  let digits := toString n
  String.ofList (List.replicate (width - digits.length) ' ') ++ digits

def listCode (level width : Nat) : Nat → List Instruction → List String
  | _, [] => []
  | index, instruction :: rest =>
    indentLine level (padLeft width index ++ ": " ++ instruction.text) ::
      listCode level width (index + 1) rest

def staticText (isStatic : Bool) : String := if isStatic then "static " else ""

def MethodBody.listing (level : Nat) (m : MethodBody) : String :=
  let width := (toString (m.code.size - 1)).length
  indentLine level ("method " ++ staticText m.header.isStatic ++ m.header.name ++
    m.header.descriptor ++ s!"  ; stack {m.limits.maxStack}, locals {m.limits.maxLocals}") ++
    String.join (listCode (level + 1) width 0 m.code.toList)

def Member.listing : Member → String
  | .field f => indentLine 1 ("field " ++ staticText f.isStatic ++ f.name ++ " " ++ f.ty.descriptor)
  | .method m => m.listing 1

def ClassFile.listing (c : ClassFile) : String :=
  indentLine 0 ("; from " ++ c.header.source) ++
    indentLine 0 ("class " ++ c.header.name ++ " extends " ++ c.header.superName) ++
    String.join (c.members.toList.map Member.listing)

/-- All classes; a blank line follows each that is complete. -/
def Assembly.listing (a : Assembly) : String :=
  String.join (a.done.toList.map fun c => c.listing ++ "\n") ++
    String.join (a.draft?.toList.map ClassFile.listing)

end StackCompiler
