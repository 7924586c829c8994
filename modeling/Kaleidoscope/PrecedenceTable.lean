import Kaleidoscope.SortedMap

/-!
Binary operator precedences. A declaration stays pending until it is committed or retracted;
retracting brings back what the symbol had before its first pending declaration.
-/

namespace Kaleidoscope

structure PrecedenceTable where
  table : SortedMap Char Int
  /-- What each symbol with a pending declaration had before the first one. -/
  pending : SortedMap Char (Option Int)
  deriving DecidableEq

namespace PrecedenceTable

def standard : PrecedenceTable where
  table := ⟨[('*', 40), ('+', 20), ('-', 20), ('<', 10), ('=', 2)], by simp [Ascending]⟩
  pending := .empty

def get? (t : PrecedenceTable) (symbol : Char) : Option Int := t.table.get? symbol

def contains (t : PrecedenceTable) (symbol : Char) : Bool := (t.get? symbol).isSome

def set (t : PrecedenceTable) (symbol : Char) (precedence : Int) : PrecedenceTable :=
  { t with table := t.table.insert symbol precedence }

def remove (t : PrecedenceTable) (symbol : Char) : PrecedenceTable :=
  { t with table := t.table.erase symbol }

def declare (t : PrecedenceTable) (symbol : Char) (precedence : Int) : PrecedenceTable :=
  match t.pending.get? symbol with
  | some _ => t.set symbol precedence
  | none => { t with pending := t.pending.insert symbol (t.get? symbol) }.set symbol precedence

def commit (t : PrecedenceTable) (symbol : Char) : PrecedenceTable :=
  { t with pending := t.pending.erase symbol }

def retract (t : PrecedenceTable) (symbol : Char) : PrecedenceTable :=
  match t.pending.get? symbol with
  | some (some previous) => (t.commit symbol).set symbol previous
  | some none => (t.commit symbol).remove symbol
  | none => t

end PrecedenceTable

end Kaleidoscope
