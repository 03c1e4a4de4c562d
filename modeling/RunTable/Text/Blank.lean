/-!
# Blank characters

Request parameters are trimmed before they are read, and blank means the white space of the
character standard: 25 characters in ten ranges. That is wider than the four blanks that may
surround a JSON value, and the two are kept apart on purpose.
-/

namespace RunTable.Text

/-- The blank characters as closed ranges of code points, ascending and apart. -/
def blankRanges : List (Nat × Nat) :=
  [(0x09, 0x0D), (0x20, 0x20), (0x85, 0x85), (0xA0, 0xA0), (0x1680, 0x1680), (0x2000, 0x200A),
   (0x2028, 0x2029), (0x202F, 0x202F), (0x205F, 0x205F), (0x3000, 0x3000)]

def isBlank (c : Char) : Bool :=
  blankRanges.any fun range => range.1 ≤ c.toNat && c.toNat ≤ range.2

def trimLeft (cs : List Char) : List Char := cs.dropWhile isBlank

/-- Drops the blanks on both sides. -/
def trimChars (cs : List Char) : List Char :=
  (trimLeft (trimLeft cs).reverse).reverse

def trim (text : String) : String := String.ofList (trimChars text.toList)

/-- The ranges cover exactly 25 characters. -/
theorem blankRanges_count :
    blankRanges.foldl (fun count range => count + (range.2 + 1 - range.1)) 0 = 25 := by decide

/-- What core calls white space is blank. -/
theorem isBlank_of_isWhitespace (c : Char) (h : c.isWhitespace = true) : isBlank c = true := by
  simp only [Char.isWhitespace, Bool.or_eq_true, decide_eq_true_eq] at h
  rcases h with ((h | h) | h) | h <;> subst h <;> decide

end RunTable.Text
