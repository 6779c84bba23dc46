import HotkeyLex.Kind

/-!
# Sets of kinds

A set is eight bits; bit `i` stands for the kind with number `i`. The two highest bits belong to
no kind. They may be set and take part in the bitwise operations, but no kind is ever found in
them.
-/

namespace HotkeyLex

structure KindSet where
  bits : UInt8
  deriving DecidableEq, Repr

namespace KindSet

/-- The set of one kind. -/
def of (kind : Kind) : KindSet := ⟨1 <<< kind.index.toUInt8⟩

def empty : KindSet := ⟨0⟩

/-- The set of all six kinds. -/
def all : KindSet := ⟨0x3F⟩

def union (a b : KindSet) : KindSet := ⟨a.bits ||| b.bits⟩

def inter (a b : KindSet) : KindSet := ⟨a.bits &&& b.bits⟩

def diff (a b : KindSet) : KindSet := ⟨a.bits &&& ~~~b.bits⟩

def symmDiff (a b : KindSet) : KindSet := ⟨a.bits ^^^ b.bits⟩

/-- The set without the bits that belong to no kind. -/
def truncate (a : KindSet) : KindSet := a.inter all

/-- The kinds that are not in the set. -/
def complement (a : KindSet) : KindSet := truncate ⟨~~~a.bits⟩

/-- Every bit of `b` is in `a`. -/
def contains (a b : KindSet) : Bool := a.bits &&& b.bits == b.bits

/-- Some bit is in both sets. -/
def intersects (a b : KindSet) : Bool := a.bits &&& b.bits != 0

def has (a : KindSet) (kind : Kind) : Bool := a.contains (of kind)

def isEmpty (a : KindSet) : Bool := a.bits == 0

/-- All six kinds are in the set. -/
def isAll (a : KindSet) : Bool := a.contains all

/-- The set, if none of its bits belongs to no kind. -/
def known? (a : KindSet) : Option KindSet := if a.truncate = a then some a else none

/-- The kinds in the set by number. -/
def kinds (a : KindSet) : List Kind := Kind.all.filter a.has

def ofKinds (kinds : List Kind) : KindSet := kinds.foldl (fun set kind => set.union (of kind)) empty

/-- The kinds whose place in the mask is true. Places past the last kind are ignored. -/
def ofMask (mask : List Bool) : KindSet :=
  ofKinds (((Kind.all.zip mask).filter (·.2)).map (·.1))

/-- The set of named kinds, or the first name that belongs to none. -/
def ofNames (names : List String) : Except UnknownKind KindSet := do
  let kinds ← names.mapM Kind.ofName
  return ofKinds kinds

end KindSet

end HotkeyLex
