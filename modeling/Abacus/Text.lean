/-!
# Characters and byte lengths

Texts are lists of characters; offsets into them count the bytes of their UTF-8 form. The
classes of characters that the notation distinguishes are set out here.
-/
namespace Abacus.Text

/-- The number of bytes of a text. -/
def byteLength (text : List Char) : Nat := text.foldr (fun c bytes => c.utf8Size + bytes) 0

@[simp] theorem byteLength_nil : byteLength [] = 0 := rfl

@[simp] theorem byteLength_cons (c : Char) (text : List Char) :
    byteLength (c :: text) = c.utf8Size + byteLength text := rfl

@[simp] theorem byteLength_append (text more : List Char) :
    byteLength (text ++ more) = byteLength text + byteLength more := by
  induction text with
  | nil => simp
  | cons c text ih => simp [ih, Nat.add_assoc]

@[simp] theorem byteLength_reverse (text : List Char) :
    byteLength text.reverse = byteLength text := by
  induction text with
  | nil => rfl
  | cons c text ih => simp [ih, Nat.add_comm]

/-- The ranges of code points with the property White_Space. -/
def blankRanges : List (Nat × Nat) :=
  [(0x09, 0x0D), (0x20, 0x20), (0x85, 0x85), (0xA0, 0xA0), (0x1680, 0x1680), (0x2000, 0x200A),
   (0x2028, 0x2029), (0x202F, 0x202F), (0x205F, 0x205F), (0x3000, 0x3000)]

def isBlank (c : Char) : Bool :=
  blankRanges.any fun r => r.1 ≤ c.toNat && c.toNat ≤ r.2

/-- A character of a number's literal. An exponent is written with a small `e` and no sign. -/
def isNumeric (c : Char) : Bool := c.isDigit || c = '.' || c = 'e'

/-- A character of a variable's name: an ASCII letter, an ASCII digit or `_`. -/
def isNameChar (c : Char) : Bool := c.isAlphanum || c = '_'

/-- Without the blanks at either end. -/
def trim (text : List Char) : List Char :=
  ((text.dropWhile isBlank).reverse.dropWhile isBlank).reverse

/-- The text before the first `c` and the text after it. -/
def splitAt? (c : Char) : List Char → Option (List Char × List Char)
  | [] => none
  | d :: rest => if d = c then some ([], rest) else (splitAt? c rest).map fun p => (d :: p.1, p.2)

/-- One more character in front of lines. -/
def consLine (c : Char) (lines : List (List Char)) : List (List Char) :=
  if c = '\n' then [] :: lines
  else match lines with
    | [] => [[c]]
    | line :: more => (c :: line) :: more

/-- The pieces of a text between its line feeds, of which a last empty one is no line. -/
def lines (text : List Char) : List (List Char) := text.foldr consLine []

end Abacus.Text
