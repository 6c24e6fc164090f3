import Breadboard.Assembly.Statement

namespace Breadboard

structure Assembly where
  symbols : SymbolTable
  scopes : Scopes
  lineMap : LineMap
  breakpoints : AddressSet
  warnings : Array Assembly.Warning
  entry? : Option UInt16
  caseSensitive : Bool
  listing : Assembly.Listing

namespace Assembly

def ofPass (p : Pass) : Assembly :=
  { symbols := p.symbols
    scopes := p.scopes
    lineMap := p.lineMap
    breakpoints := p.breakpoints
    warnings := p.warnings
    entry? := p.entry?
    caseSensitive := p.flags.caseSensitive
    listing := p.listing }

def key (a : Assembly) (name : String) : String :=
  if a.caseSensitive then name else name.toLower

/-- The value of a symbol as an address. A local symbol is asked for under the name of
its scope and its own. -/
def lookup? (a : Assembly) (name : String) : Option UInt16 :=
  (a.symbols.value? (a.key name)).map (·.toUInt32.toUInt16)

def lineOf? (a : Assembly) (addr : UInt16) : Option Location :=
  a.lineMap[addr]?

/-- The address of the instruction on a line, or on the next line that has one
unless it must be exact. -/
def addressOf? (a : Assembly) (file : FileId) (line : Nat) (exact : Bool) :
    Option UInt16 :=
  a.lineMap.find? file line exact

def scopeAt? (a : Assembly) (file : FileId) (line : Nat) : Option String :=
  a.scopes.at? file line

def complete (a : Assembly) (file : FileId) (line : Nat) (start : String) :
    Option String :=
  a.symbols.complete (a.scopeAt? file line) (a.key start)

end Assembly

end Breadboard
