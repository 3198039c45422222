import DocLint.Text.CharClass

/-!
# Full-width characters

The forms of ordinary characters that fill a whole cell of East Asian type, and the
typographic quotation marks that are set like them. The five kinds are disjoint. Not
every full-width form is in one: the full-width hyphen and backslash are allowed, and so
are the ideographic comma and full stop.
-/

namespace DocLint

/-- The kinds of full-width character that a document must not hold. -/
inductive FullWidth where
  | space
  | paren
  | alphabet
  | numeric
  | symbol
  deriving DecidableEq, Repr

namespace FullWidth

/-- The kinds in the order in which they are reported for one line. -/
def all : List FullWidth :=
  [.space, .paren, .alphabet, .numeric, .symbol]

/-- The characters of a kind. -/
def chars : FullWidth → CharClass
  | .space => ⟨[(0x3000, 0x3000)]⟩
  | .paren => ⟨[(0xFF08, 0xFF09)]⟩
  | .alphabet => ⟨[(0xFF21, 0xFF3A), (0xFF41, 0xFF5A)]⟩
  | .numeric => ⟨[(0xFF10, 0xFF19)]⟩
  | .symbol => ⟨[(0x2018, 0x2019), (0x201C, 0x201D), (0xFF01, 0xFF07), (0xFF0A, 0xFF0C),
      (0xFF0E, 0xFF0F), (0xFF1A, 0xFF20), (0xFF3B, 0xFF3B), (0xFF3D, 0xFF40),
      (0xFF5B, 0xFF5E), (0xFFE5, 0xFFE5)]⟩

/-- The characters of a kind, spelled out. -/
def spelled : FullWidth → Text
  | .space => "\u3000".toList
  | .paren => "（）".toList
  | .alphabet =>
      "ＡＢＣＤＥＦＧＨＩＪＫＬＭ".toList ++ "ＮＯＰＱＲＳＴＵＶＷＸＹＺ".toList ++
        "ａｂｃｄｅｆｇｈｉｊｋｌｍ".toList ++ "ｎｏｐｑｒｓｔｕｖｗｘｙｚ".toList
  | .numeric => "０１２３４５６７８９".toList
  | .symbol => "‘’“”！＂＃＄％＆＇＊＋，．／".toList ++ "：；＜＝＞？＠［］＾＿｀｛｜｝～￥".toList

theorem contains_chars_iff (kind : FullWidth) (char : Char) :
    kind.chars.contains char ↔ char ∈ kind.spelled := by
  apply CharClass.contains_iff_mem
  cases kind with
  | space => decide
  | paren => decide
  | alphabet => decide
  | numeric => decide
  | symbol => decide

/-- The name of a kind in messages. -/
def name : FullWidth → Text
  | .space => "space".toList
  | .paren => "paren".toList
  | .alphabet => "alphabet".toList
  | .numeric => "numeric".toList
  | .symbol => "symbol".toList

end FullWidth

end DocLint
