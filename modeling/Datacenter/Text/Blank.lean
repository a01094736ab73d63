/-!
# Blanks

The characters that count as white space, in the sense of the Unicode property `White_Space`, and
trimming a text of them on both sides.
-/

namespace Datacenter.Text

/-- Whether a character has the property `White_Space`. -/
def isBlank (c : Char) : Bool :=
  let n := c.toNat
  (0x9 ≤ n && n ≤ 0xD) || n == 0x20 || n == 0x85 || n == 0xA0 || n == 0x1680 ||
    (0x2000 ≤ n && n ≤ 0x200A) || n == 0x2028 || n == 0x2029 || n == 0x202F || n == 0x205F ||
    n == 0x3000

/-- Drops the blanks in front. -/
def trimFront (cs : List Char) : List Char :=
  cs.dropWhile isBlank

/-- Drops the blanks at the end. -/
def trimBack (cs : List Char) : List Char :=
  (cs.reverse.dropWhile isBlank).reverse

/-- Drops the blanks on both sides. -/
def trim (cs : List Char) : List Char :=
  trimBack (trimFront cs)

theorem length_trim_le (cs : List Char) : (trim cs).length ≤ cs.length := by
  have front := (List.dropWhile_sublist (p := isBlank) (l := cs)).length_le
  have back :=
    (List.dropWhile_sublist (p := isBlank) (l := (cs.dropWhile isBlank).reverse)).length_le
  simp only [trim, trimBack, trimFront, List.length_reverse] at *
  omega

end Datacenter.Text
