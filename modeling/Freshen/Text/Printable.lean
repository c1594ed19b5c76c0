import Freshen.Text.Extender
import Freshen.Text.Ranges
import Freshen.Text.Unassigned

/-!
# Printable characters

A character is printable if it shows something of its own.  Controls, formatting and ignorable
characters, separators other than the space, private and unassigned code points, and extenders do
not.

- `Printable.isPrintable`: whether a character is printable.
-/

namespace Freshen.Printable

/-- Controls, which do not name a character (general category Cc). -/
def controlRanges : List (Nat × Nat) := [(0x00, 0x1f), (0x7f, 0x9f)]

/-- Separators other than the space (general categories Zs, Zl and Zp). -/
def separatorRanges : List (Nat × Nat) :=
  [(0xa0, 0xa0), (0x1680, 0x1680), (0x2000, 0x200a), (0x2028, 0x2029), (0x202f, 0x202f),
    (0x205f, 0x205f), (0x3000, 0x3000)]

/-- Formatting characters (general category Cf). -/
def formatRanges : List (Nat × Nat) :=
  [(0xad, 0xad), (0x600, 0x605), (0x61c, 0x61c), (0x6dd, 0x6dd), (0x70f, 0x70f), (0x890, 0x891),
    (0x8e2, 0x8e2), (0x180e, 0x180e), (0x200b, 0x200f), (0x202a, 0x202e), (0x2060, 0x2064),
    (0x2066, 0x206f), (0xfeff, 0xfeff), (0xfff9, 0xfffb), (0x110bd, 0x110bd), (0x110cd, 0x110cd),
    (0x13430, 0x1343f), (0x1bca0, 0x1bca3), (0x1d173, 0x1d17a), (0xe0001, 0xe0001),
    (0xe0020, 0xe007f)]

/-- Code points that are shown as nothing where they have no effect, among them fillers and
variation selectors (the property Default_Ignorable_Code_Point). -/
def ignorableRanges : List (Nat × Nat) :=
  [(0xad, 0xad), (0x34f, 0x34f), (0x61c, 0x61c), (0x115f, 0x1160), (0x17b4, 0x17b5),
    (0x180b, 0x180f), (0x200b, 0x200f), (0x202a, 0x202e), (0x2060, 0x206f), (0x3164, 0x3164),
    (0xfe00, 0xfe0f), (0xfeff, 0xfeff), (0xffa0, 0xffa0), (0xfff0, 0xfff8), (0x1bca0, 0x1bca3),
    (0x1d173, 0x1d17a), (0xe0000, 0xe0fff)]

/-- Code points for private use (general category Co). -/
def privateRanges : List (Nat × Nat) :=
  [(0xe000, 0xf8ff), (0xf0000, 0xffffd), (0x100000, 0x10fffd)]

/-- Whether a character beyond ASCII shows something of its own. -/
def showsBeyondAscii (c : Char) : Bool :=
  !([controlRanges, separatorRanges, formatRanges, ignorableRanges, privateRanges,
    Extender.ranges, Unassigned.ranges].any (Ranges.contain · c))

/-- Whether a character is printable. -/
def isPrintable (c : Char) : Bool :=
  if c.toNat < 0x80 then 0x20 ≤ c.toNat && c.toNat < 0x7f else showsBeyondAscii c

end Freshen.Printable
