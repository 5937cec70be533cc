import StackCompiler.Analysis.State

/-!
# Captures

A nested function is handed the variables of functions around it that it reads. Whoever calls it
needs these too, unless they are its own variables, so that they spread along the calls.
-/

namespace StackCompiler

/-- The captured symbols of each function, in increasing order. -/
abbrev Captures := Array (List SymbolId)

def insertSorted (id : SymbolId) : List SymbolId → List SymbolId
  | [] => [id]
  | first :: rest =>
    if id < first then id :: first :: rest
    else if id = first then first :: rest
    else first :: insertSorted id rest

def Captures.add (captures : Captures) (function : FnId) (symbol : SymbolId) : Captures :=
  captures.modify function (insertSorted symbol)

def Captures.of (captures : Captures) (function : FnId) : List SymbolId := captures.getD function []

def directCaptures (functions : Nat) (reads : List (FnId × SymbolId)) : Captures :=
  reads.foldl (fun captures read => captures.add read.1 read.2) (Array.replicate functions [])

/-- A caller needs what its callee captures, unless it owns it. -/
def spreadCall (owner : SymbolId → Option FnId) (captures : Captures) (site : CallSite) :
    Captures :=
  (captures.of site.callee).foldl (fun captures symbol =>
    if owner symbol = some site.caller then captures else captures.add site.caller symbol) captures

def spreadRound (owner : SymbolId → Option FnId) (calls : Array CallSite) (captures : Captures) :
    Captures :=
  calls.foldl (spreadCall owner) captures

/-- Spreads captures for up to the given number of rounds. -/
def spread (owner : SymbolId → Option FnId) (calls : Array CallSite) :
    (fuel : Nat) → Captures → Captures
  | 0, captures => captures
  | fuel + 1, captures =>
    let next := spreadRound owner calls captures
    if next = captures then captures else spread owner calls fuel next

def AnalysisState.owner? (s : AnalysisState) (symbol : SymbolId) : Option FnId :=
  (s.symbols[symbol]?).bind Symbol.owner

/-- The captures of all functions. Each round but the last adds one. -/
def AnalysisState.captures (s : AnalysisState) : Captures :=
  spread s.owner? s.calls (s.functions.size * s.symbols.size + 1)
    (directCaptures s.functions.size s.outerReads)

/-- The captures that the caller declares only after the call. -/
def lateCaptures (owner : SymbolId → Option FnId) (captures : List SymbolId) (site : CallSite) :
    List SymbolId :=
  captures.filter fun symbol => owner symbol = some site.caller ∧ site.watermark ≤ symbol

def checkCall (site : CallSite) : Analyze Unit := do
  let s ← get
  match s.functions[site.callee]? with
  | none => pure ()
  | some callee =>
    (lateCaptures s.owner? callee.captures site).forM fun symbol =>
      report .unresolvedName ("`" ++ callee.name ++ "` uses `" ++
        ((s.symbols[symbol]?).map Symbol.name).getD "" ++
        "`, which is not declared before this call") site.span .call

/-- Notes the captures of all functions and checks the calls. -/
def closeCaptures : Analyze Unit := do
  let s ← get
  let captures := s.captures
  let functions := s.functions.mapIdx fun id info => { info with captures := captures.of id }
  set { s with functions := functions }
  s.calls.toList.forM checkCall

end StackCompiler
