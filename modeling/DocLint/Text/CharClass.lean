import DocLint.Text

/-!
# Classes of characters

A class is given by the ranges of code points it holds.
-/

namespace DocLint

/-- A set of code points, as inclusive ranges. -/
structure CharClass where
  ranges : List (Nat × Nat)
  deriving DecidableEq, Repr

/-- Whether a character is in a class. -/
def CharClass.contains (cls : CharClass) (char : Char) : Bool :=
  cls.ranges.any fun range => range.1 ≤ char.toNat && char.toNat ≤ range.2

/-- The code points of a class, range by range. -/
def CharClass.points (cls : CharClass) : List Nat :=
  cls.ranges.flatMap fun range => List.range' range.1 (range.2 + 1 - range.1)

/-- A class holds the characters of a text that spells out its code points. -/
theorem CharClass.contains_iff_mem {cls : CharClass} {text : Text}
    (spelled : text.map Char.toNat = cls.points) (char : Char) :
    cls.contains char ↔ char ∈ text := by
  have points : cls.contains char ↔ char.toNat ∈ cls.points := by
    simp only [contains, CharClass.points, List.any_eq_true, List.mem_flatMap, List.mem_range'_1,
      Bool.and_eq_true, decide_eq_true_eq]
    constructor
    · intro there
      obtain ⟨range, member, low, high⟩ := there
      exact ⟨range, member, low, by omega⟩
    · intro there
      obtain ⟨range, member, low, high⟩ := there
      exact ⟨range, member, low, by omega⟩
  rw [points, ← spelled, List.mem_map]
  constructor
  · intro there
    obtain ⟨other, member, same⟩ := there
    exact Char.toNat_inj.1 same ▸ member
  · exact fun member => ⟨char, member, rfl⟩

/-- Whether some character of a text is in a class. -/
def CharClass.occursIn (cls : CharClass) (text : Text) : Bool :=
  text.any cls.contains

/-- The characters of the Unicode property `White_Space`. The next-line control, the
no-break spaces and the ideographic space are among them; the zero-width space is not. -/
def whiteSpace : CharClass where
  ranges := [(0x09, 0x0D), (0x20, 0x20), (0x85, 0x85), (0xA0, 0xA0), (0x1680, 0x1680),
    (0x2000, 0x200A), (0x2028, 0x2029), (0x202F, 0x202F), (0x205F, 0x205F), (0x3000, 0x3000)]

theorem contains_whiteSpace_iff (char : Char) : whiteSpace.contains char ↔
    char ∈ ['\t', '\n', '\x0B', '\x0C', '\r', ' ', '\u0085', '\u00A0', '\u1680', '\u2000', '\u2001',
      '\u2002', '\u2003', '\u2004', '\u2005', '\u2006', '\u2007', '\u2008', '\u2009', '\u200A',
      '\u2028', '\u2029', '\u202F', '\u205F', '\u3000'] :=
  CharClass.contains_iff_mem (by decide) char

/-- A line is blank when it holds white space only, its terminator included. -/
def Text.isBlank (line : Text) : Bool :=
  line.all whiteSpace.contains

end DocLint
