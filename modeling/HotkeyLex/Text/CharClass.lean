/-!
# Character classes of a script

Every class answers no outside ASCII. The null character, which a cursor also reports at the end
of a script, is in no class except `isLineEnd`: a run over any other class stops there by itself.
-/

namespace HotkeyLex

/-- Letters, digits and the underscore. -/
def isWordChar (c : Char) : Bool := c.isAlphanum || c == '_'

/-- Space or tab. -/
def isBlank (c : Char) : Bool := c == ' ' || c == '\t'

/-- Blanks and the two line break characters. -/
def isSpace (c : Char) : Bool := isBlank c || c == '\n' || c == '\r'

/-- A line break character, or the null character that stands for the end of a script. -/
def isLineEnd (c : Char) : Bool := c == '\n' || c == '\r' || c == '\x00'

/-- First characters of binary and postfix operators. The signs are absent: they may belong to an
operand and have a rule of their own. -/
def beginsOperator (c : Char) : Bool :=
  ['?', '*', '/', '<', '>', '=', '^', '|', '&', '!', '~', ':', '.', ','].contains c

def isSign (c : Char) : Bool := c == '+' || c == '-'

/-- Characters an operand can begin with: word characters, quotes, an opening parenthesis, signs
and the percent sign of a dynamic reference. -/
def beginsOperand (c : Char) : Bool :=
  isWordChar c || ['\x22', '\x27', '(', '+', '-', '%'].contains c

/-- Characters that may stand behind an optional mark. -/
def mayFollowOptional (c : Char) : Bool := [')', ']', '\x7d', ',', ':'].contains c

/-- First letters of the operators that are spelled as words, in either case. -/
def beginsVerb (c : Char) : Bool := ['a', 'n', 'i', 'o', 'c'].contains c.toLower

def isParen (c : Char) : Bool := c == '(' || c == ')'

end HotkeyLex
