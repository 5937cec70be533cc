import StackCompiler.Analysis

/-!
# Exports

Before any unit is analysed, all of them publish their functions and records. A name belongs to
the first unit that publishes it. What has a signature that cannot be understood is withheld, and
so is all that mentions a withheld record.

* `Export`, `ExportConflict`, `ExportTable`: what units publish;
* `TypeExpr.resolveIn`: a written type, given the records of a unit;
* `Export.isBroken`, `withheld`: what is withheld;
* `ExportTable.publish`: the table of some units;
* `ExportTable.importsFor`, `ExportTable.conflictsFor`: what a unit sees of it.
-/

namespace StackCompiler

inductive Signature where
  | function (method : String) (params : List Ty) (ret : Ty)
  | record (fields : List (String × Ty))
deriving DecidableEq

def Signature.types : Signature → List Ty
  | function _ params ret => params ++ [ret]
  | record fields => fields.map Prod.snd

/-- A declaration that other units can use. -/
structure Export where
  name : String
  unit : Nat
  className : String
  decl : DeclId
  signature : Signature
  span : Span
deriving DecidableEq

/-- A declaration whose name belongs to another unit. -/
structure ExportConflict where
  unit : Nat
  name : String
  span : Span
  owner : String
deriving DecidableEq

/-- What some units publish. -/
structure ExportTable where
  exports : List Export
  conflicts : List ExportConflict
deriving DecidableEq

/-! ## Collecting names -/

structure TopDecl where
  name : Ident
  span : Span
  index : Nat
  item : Item
  method : String

def topDecls (taken : List String) : (index : Nat) → List Item → List TopDecl
  | _, [] => []
  | index, .function f :: rest =>
    let method := uniqueMethod taken f.head.name.name
    ⟨f.head.name, f.head.span, index, .function f, method⟩ ::
      topDecls (method :: taken) (index + 1) rest
  | index, .record r :: rest =>
    ⟨r.name, r.span, index, .record r, ""⟩ :: topDecls taken (index + 1) rest
  | index, .stmt _ :: rest => topDecls taken (index + 1) rest

structure Publisher where
  unit : Nat
  className : String
  decls : List TopDecl

namespace Publisher

def of (unit : SourceUnit) (number : Nat) : Publisher :=
  ⟨number, unitClassName unit.name, topDecls reservedMethods 0 unit.items⟩

def ownRecord? (p : Publisher) (name : String) : Option DeclId :=
  let isRecord (d : TopDecl) : Bool := match d.item with
    | .record _ => d.name.name == name
    | _ => false
  (p.decls.find? isRecord).map fun d => ⟨p.unit, d.index⟩

end Publisher

structure Published where
  publisher : Publisher
  decl : TopDecl

namespace Published

def name (p : Published) : String := p.decl.name.name

def id (p : Published) : DeclId := ⟨p.publisher.unit, p.decl.index⟩

end Published

/-- The names published so far, and those that belong to others. -/
structure Published.Names where
  owned : List Published
  conflicts : List ExportConflict

/-- Publishes a name, unless it has an owner. -/
def Published.Names.add (names : Names) (p : Published) : Names :=
  match names.owned.find? (·.name == p.name) with
  | none => { names with owned := names.owned ++ [p] }
  | some existing =>
    if existing.publisher.unit = p.publisher.unit then names
    else
      let conflict : ExportConflict :=
        ⟨p.publisher.unit, p.name, p.decl.name.span, existing.publisher.className⟩
      { names with conflicts := names.conflicts ++ [conflict] }

/-- The names that some units publish, in their order. -/
def Published.collect (publishers : List Publisher) : Names :=
  (publishers.flatMap fun p => p.decls.map (⟨p, ·⟩)).foldl Names.add ⟨[], []⟩

/-! ## Signatures -/

/-- The type that is written, where `record?` knows the records; the unknown becomes an error. -/
def TypeExpr.resolveIn (record? : String → Option DeclId) : TypeExpr → Ty
  | .named ident =>
    match Ty.primitive? ident.name with
    | some ty => ty
    | none =>
      match record? ident.name with
      | some decl => .record decl ident.name
      | none => .error
  | .array elem _ => .array (elem.resolveIn record?)

def publishedRecord? (owned : List Published) (name : String) : Option DeclId :=
  match owned.find? (·.name == name) with
  | some p =>
    match p.decl.item with
    | .record _ => some p.id
    | _ => none
  | none => none

/-- Records of the unit itself come before others. -/
def Published.signature (owned : List Published) (p : Published) : Signature :=
  let record? (name : String) := p.publisher.ownRecord? name <|> publishedRecord? owned name
  match p.decl.item with
  | .function f =>
    .function p.decl.method (f.head.params.map (·.ty.resolveIn record?))
      ((f.head.ret.map (·.resolveIn record?)).getD .void)
  | .record r => .record (r.fields.map fun f => (f.name.name, f.ty.resolveIn record?))
  | .stmt _ => .record []

def Published.entry (owned : List Published) (p : Published) : Export :=
  ⟨p.name, p.publisher.unit, p.publisher.className, p.id, p.signature owned, p.decl.span⟩

/-! ## Withholding -/

/-- A type is, or is an array of, one of the given records. -/
def Ty.mentions (decls : List DeclId) : Ty → Bool
  | .record decl _ => decls.contains decl
  | .array elem => elem.mentions decls
  | _ => false

/-- A signature has an error in it or mentions a withheld record. -/
def Export.isBroken (withheld : List DeclId) (e : Export) : Bool :=
  e.signature.types.any fun ty => ty.containsError || ty.mentions withheld

/-- Withholds what is broken, one export after the other. -/
def withholdRound (exports : List Export) (withheld : List DeclId) : List DeclId :=
  exports.foldl (fun withheld e =>
    if withheld.contains e.decl then withheld
    else if e.isBroken withheld then e.decl :: withheld
    else withheld) withheld

/-- Withholds for up to the given number of rounds. -/
def withholdRounds (exports : List Export) : (fuel : Nat) → List DeclId → List DeclId
  | 0, withheld => withheld
  | fuel + 1, withheld =>
    let next := withholdRound exports withheld
    if next.length = withheld.length then withheld else withholdRounds exports fuel next

/-- What is withheld. Each round but the last withholds an export. -/
def withheld (exports : List Export) : List DeclId :=
  withholdRounds exports (exports.length + 1) []

/-! ## The table -/

namespace ExportTable

def empty : ExportTable := ⟨[], []⟩

def publish (units : List SourceUnit) : ExportTable :=
  let names := Published.collect (units.mapIdx fun number unit => Publisher.of unit number)
  let exports := names.owned.map (·.entry names.owned)
  let dropped := withheld exports
  ⟨exports.filter (!dropped.contains ·.decl), names.conflicts⟩

def get? (t : ExportTable) (name : String) : Option Export := t.exports.find? (·.name == name)

def importsFor (t : ExportTable) (unit : Nat) : List Export := t.exports.filter (·.unit != unit)

def conflictsFor (t : ExportTable) (unit : Nat) : List ExportConflict :=
  t.conflicts.filter (·.unit == unit)

end ExportTable

end StackCompiler
