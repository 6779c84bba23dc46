/-!
# Vocabulary

The words the rules know. All tables are in lower case, and every look-up expects a word that has
been folded before.

A declaration never begins with a control flow word or a verbal operator: in `if (x)` followed by
a block, `if` names no function. The look-up of these words goes by length first.
-/

namespace HotkeyLex.Vocabulary

/-- How many characters of a declared name are kept for comparison. -/
def nameCapacity : Nat := 16

/-- How many characters of a possible verbal operator are kept; the longest operator just fits. -/
def operatorCapacity : Nat := 8

/-- How many characters of a section option are kept. -/
def optionCapacity : Nat := 8

/-- Stands in front of the name of a static method. -/
def storage : String := "static"

/-- Words that begin no declaration. -/
def reserved : List String :=
  ["if", "while", "for", "loop", "try", "catch", "finally", "else", "switch", "case", "default",
   "goto", "return", "break", "continue", "as", "in", "and", "or", "not", "is", "contains"]

/-- Binary operators spelled as words. -/
def operators : List String := ["and", "not", "is", "or", "contains"]

/-- Spellings of the section option that keeps comments. -/
def comments : List String := ["comments", "comment", "com", "c"]

/-- Spellings of the section options that trim. -/
def trims : List String := ["ltrim", "ltrim0", "rtrim0"]

/-- Reserved words by their number of bytes. -/
def reservedOfSize : Nat → List String
  | 2 => ["if", "as", "in", "or", "is"]
  | 3 => ["for", "try", "and", "not"]
  | 4 => ["loop", "else", "case", "goto"]
  | 5 => ["while", "catch", "break"]
  | 6 => ["switch", "return"]
  | 7 => ["finally", "default"]
  | 8 => ["continue", "contains"]
  | _ => []

def isReservedWord (word : String) : Bool := (reservedOfSize word.utf8ByteSize).contains word

def isOperatorWord (word : String) : Bool := operators.contains word

def isCommentWord (word : String) : Bool := comments.contains word

def isTrimWord (word : String) : Bool := trims.contains word

end HotkeyLex.Vocabulary
