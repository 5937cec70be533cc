import StackCompiler.Ast

/-!
# Scopes

Scopes are numbered in the order in which they are entered. Names are looked up in the open ones,
from the innermost outwards. A scope takes declarations once it has begun to declare, and forgets
its names when it is left.
-/

namespace StackCompiler

inductive ScopeState where
  | entered
  /-- Declarations are being collected. -/
  | declaring
  /-- The contents are being analysed. -/
  | analyzing
  | exited
deriving DecidableEq

def ScopeState.label : ScopeState → String
  | entered => "Entered"
  | declaring => "Declaring"
  | analyzing => "Analyzing"
  | exited => "Exited"

inductive ScopeKind where
  | builtins
  | imports
  | unit
  | function (id : FnId)
  | block
  | loop
deriving DecidableEq

inductive ScopeError where
  | duplicate (name : String) (existing : SymbolId)
  | unresolved (name : String)
  | noScope
  | notDeclaring (name : String) (state : ScopeState)
deriving DecidableEq

def ScopeError.message : ScopeError → String
  | duplicate name _ => "`" ++ name ++ "` is already declared in this scope"
  | unresolved name => "cannot find `" ++ name ++ "` in this scope"
  | noScope => "no scope is open"
  | notDeclaring name state => "`" ++ name ++ "` declared in a scope that is " ++ state.label

/-- A scope with its names in the order of declaration. -/
structure Scope where
  kind : ScopeKind
  state : ScopeState
  names : List (String × SymbolId)
deriving DecidableEq

namespace Scope

def lookup (s : Scope) (name : String) : Option SymbolId := s.names.lookup name

def isOpen (s : Scope) : Bool := s.state == .declaring || s.state == .analyzing

end Scope

/-- All scopes ever entered, and which of them are open. -/
structure ScopeStack where
  scopes : Array Scope
  /-- The open scopes, the innermost first. -/
  active : List Nat

namespace ScopeStack

def empty : ScopeStack := ⟨#[], []⟩

def current? (s : ScopeStack) : Option Scope := s.active.head?.bind (s.scopes[·]?)

def modifyCurrent (s : ScopeStack) (f : Scope → Scope) : ScopeStack :=
  match s.active with
  | [] => s
  | id :: _ => { s with scopes := s.scopes.modify id f }

def enter (s : ScopeStack) (kind : ScopeKind) : ScopeStack where
  scopes := s.scopes.push ⟨kind, .entered, []⟩
  active := s.scopes.size :: s.active

def setState (s : ScopeStack) (state : ScopeState) : ScopeStack :=
  s.modifyCurrent fun scope => { scope with state := state }

/-- Leaves the scope and gives its symbols. -/
def exit (s : ScopeStack) : Except ScopeError (List SymbolId × ScopeStack) :=
  match s.active with
  | [] => .error .noScope
  | id :: outer =>
    let symbols := match s.scopes[id]? with
      | some scope => scope.names.map Prod.snd
      | none => []
    let scopes := s.scopes.modify id fun scope => { scope with state := .exited, names := [] }
    .ok (symbols, ⟨scopes, outer⟩)

/-- Binds a name; an outer binding is hidden. -/
def declare (s : ScopeStack) (name : String) (symbol : SymbolId) :
    Except ScopeError ScopeStack :=
  match s.current? with
  | none => .error .noScope
  | some scope =>
    if !scope.isOpen then .error (.notDeclaring name scope.state)
    else
      match scope.lookup name with
      | some existing => .error (.duplicate name existing)
      | none =>
        .ok (s.modifyCurrent fun scope => { scope with names := scope.names ++ [(name, symbol)] })

/-- What a name is bound to in the innermost scope that has it; the depth counts the scopes outside.
-/
def resolveIn (s : ScopeStack) (name : String) : List Nat → Option Binding
  | [] => none
  | id :: outer =>
    match (s.scopes[id]?).bind (·.lookup name) with
    | some symbol => some ⟨symbol, outer.length⟩
    | none => s.resolveIn name outer

def resolve (s : ScopeStack) (name : String) : Except ScopeError Binding :=
  match s.resolveIn name s.active with
  | some binding => .ok binding
  | none => .error (.unresolved name)

def depth (s : ScopeStack) : Nat := s.active.length - 1

end ScopeStack

end StackCompiler
