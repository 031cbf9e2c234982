set_option autoImplicit false

/-!
# Layout of texts

Source text is divided into lines, and lines are divided at blanks. Printed tables have columns.
-/

namespace CounterMachine.Text

/-! ## Blanks

A blank is a character with the Unicode property `White_Space`: a no-break space and the ideographic space are
blanks, a zero-width space and a byte-order mark are not. -/

/-- First and last code points of the ranges that carry the property `White_Space`. -/
def blankRanges : List (Nat × Nat) :=
  [(0x09, 0x0D), (0x20, 0x20), (0x85, 0x85), (0xA0, 0xA0), (0x1680, 0x1680), (0x2000, 0x200A),
    (0x2028, 0x2029), (0x202F, 0x202F), (0x205F, 0x205F), (0x3000, 0x3000)]

def isBlank (c : Char) : Bool :=
  blankRanges.any fun range => range.1 ≤ c.toNat && c.toNat ≤ range.2

def withoutBlanks (text : List Char) : List Char :=
  text.filter fun c => !isBlank c

/-! ## Lines

A line ends at a line feed, and one carriage return just before the line feed belongs to the line end. A
text that ends with a line feed has no empty line after it. -/

/-- A line without one carriage return at its end. -/
def withoutReturn (line : List Char) : List Char :=
  if line.getLast? = some '\r' then line.dropLast else line

/-- The lines of a text, given the characters of the current line in reverse order. -/
def linesFrom : List Char → List Char → List (List Char)
  | [], [] => []
  | current, [] => [current.reverse]
  | current, c :: rest =>
      if c = '\n' then withoutReturn current.reverse :: linesFrom [] rest
      else linesFrom (c :: current) rest

def lines (text : List Char) : List (List Char) :=
  linesFrom [] text

/-! ## Columns

A column is padded with spaces up to its width in characters. A longer text is not cut. -/

/-- A text moved to the right end of a column. -/
def alignRight (width : Nat) (text : String) : String :=
  String.ofList (text.toList.leftpad width ' ')

/-- A text at the left end of a column. -/
def alignLeft (width : Nat) (text : String) : String :=
  String.ofList (text.toList.rightpad width ' ')

end CounterMachine.Text
