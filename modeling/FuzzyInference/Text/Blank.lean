/-!
Blanks and words. A blank is a character of the property White_Space; the words of a text are its
maximal runs without blanks, in order.
-/
namespace FuzzyInference.Text

/-- The property White_Space: the ASCII controls and the space, U+0085, the no-break space and the
spaces and separators of the general categories Zs, Zl and Zp. -/
def isBlank (c : Char) : Bool :=
  let n := c.toNat
  (0x09 ≤ n && n ≤ 0x0D) || n = 0x20 || n = 0x85 || n = 0xA0 || n = 0x1680 ||
    (0x2000 ≤ n && n ≤ 0x200A) || n = 0x2028 || n = 0x2029 || n = 0x202F || n = 0x205F ||
    n = 0x3000

/-- The word whose characters have been read, newest first, or no word. -/
def close : List Char → List String
  | [] => []
  | pending => [String.ofList pending.reverse]

/-- The words of a text, given the characters already read of a word that is still open. -/
def wordsAfter (pending : List Char) : List Char → List String
  | [] => close pending
  | c :: rest =>
    if isBlank c then close pending ++ wordsAfter [] rest else wordsAfter (c :: pending) rest

/-- The words of a text. -/
def words (text : String) : List String := wordsAfter [] text.toList

/-- The text without its blanks at both ends. -/
def trim (text : String) : String :=
  String.ofList ((text.toList.dropWhile isBlank).reverse.dropWhile isBlank).reverse

/-- Words with one space between neighbours. -/
def unwords (words : List String) : String := " ".intercalate words

end FuzzyInference.Text
