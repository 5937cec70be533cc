import StackCompiler.ClassFile

/-!
# Assembly text

Classes as input for a Jasmin assembler: a directive or an instruction to a line, and a label
before every instruction that a jump goes to.
-/

namespace StackCompiler

def unlines (lines : List String) : String := String.join (lines.map (· ++ "\n"))

def jumpTargets (code : Array Instruction) : List Nat :=
  code.toList.filterMap fun instruction =>
    match instruction.target? with
    | some (.index position) => some position
    | _ => none

def modifierText (isStatic : Bool) : String := if isStatic then "public static" else "public"

def codeLines (isTarget : Nat → Bool) : Nat → List Instruction → List String
  | _, [] => []
  | index, instruction :: rest =>
    let line := "    " ++ instruction.text
    let lines := codeLines isTarget (index + 1) rest
    if isTarget index then s!"L{index}:" :: line :: lines else line :: lines

/-- A flag for each position of the code, set where jumps go to. -/
def targetFlags (code : Array Instruction) : Array Bool :=
  (jumpTargets code).foldl (fun flags position => flags.setIfInBounds position true)
    (Array.replicate code.size false)

def MethodBody.assembly (m : MethodBody) : List String :=
  let flags := targetFlags m.code
  [".method " ++ modifierText m.header.isStatic ++ " " ++ m.header.name ++ m.header.descriptor,
    s!"    .limit stack {m.limits.maxStack}", s!"    .limit locals {m.limits.maxLocals}"] ++
    codeLines (fun index => flags.getD index false) 0 m.code.toList ++ [".end method", ""]

def FieldInfo.assembly (f : FieldInfo) : String :=
  ".field " ++ modifierText f.isStatic ++ " " ++ f.name ++ " " ++ f.ty.descriptor

/-- A blank line stands between fields and methods. -/
def memberLines : (afterField : Bool) → List Member → List String
  | _, [] => []
  | _, .field field :: rest => field.assembly :: memberLines true rest
  | afterField, .method method :: rest =>
    (if afterField then [""] else []) ++ method.assembly ++ memberLines false rest

def ClassFile.assembly (c : ClassFile) : String :=
  unlines ([".source " ++ c.header.source, ".class public " ++ c.header.name,
    ".super " ++ c.header.superName, ""] ++ memberLines false c.members.toList)

def ClassHeader.assemblyFile (h : ClassHeader) : String := h.name ++ ".j"

/-- The files of all classes that are complete. -/
def Assembly.assemblyFiles (a : Assembly) : List (String × String) :=
  (a.done.toList.map fun c => (c.header.assemblyFile, c.assembly)) ++
    (a.draft?.toList.map fun c => (c.header.assemblyFile, ""))

end StackCompiler
