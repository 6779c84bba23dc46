/-!
# Kinds of token

Six questions a grammar cannot settle by itself. Their numbers are the places in the grammar's own
table of outside tokens and their names are the ones used there, so neither ever changes.
-/

namespace HotkeyLex

inductive Kind where
  /-- The `?` behind an optional parameter or argument. -/
  | optional
  /-- Nothing, in front of a declared function's name. -/
  | declaration
  /-- Nothing, in place of an argument left out before a comma. -/
  | omitted
  /-- Blanks that join the two values around them. -/
  | juxtaposition
  /-- The parenthesis that opens a continuation section. -/
  | sectionOpen
  /-- A line break inside a continuation section. -/
  | lineBreak
  deriving DecidableEq, Repr

/-- A name that belongs to no kind. -/
structure UnknownKind where
  name : String
  deriving DecidableEq, Repr

def UnknownKind.message (e : UnknownKind) : String := "unknown token kind `" ++ e.name ++ "`"

namespace Kind

/-- All kinds by number. -/
def all : List Kind := [optional, declaration, omitted, juxtaposition, sectionOpen, lineBreak]

def index : Kind → Nat
  | optional => 0
  | declaration => 1
  | omitted => 2
  | juxtaposition => 3
  | sectionOpen => 4
  | lineBreak => 5

def ofIndex? (i : Nat) : Option Kind := all[i]?

def name : Kind → String
  | optional => "optional_marker"
  | declaration => "function_def_marker"
  | omitted => "empty_arg"
  | juxtaposition => "implicit_concat_marker"
  | sectionOpen => "continuation_section_start"
  | lineBreak => "continuation_newline"

/-- The kind with exactly this name. -/
def ofName (name : String) : Except UnknownKind Kind :=
  match all.find? (·.name == name) with
  | some kind => .ok kind
  | none => .error ⟨name⟩

end Kind

end HotkeyLex
