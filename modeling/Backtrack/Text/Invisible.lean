/-!
# Characters That Leave No Mark

A diagnostic that quotes a token must show what the token is made of, so a character
that a reader could not see, or that would merge with its neighbour, is written by its
code point instead of as itself. This module holds the table of such characters:
controls, format characters, separators other than the plain space, combining marks of
the general blocks, variation selectors, private-use and non-characters.

The table is abridged. Of the marks that belong to single scripts it has those in the first
blocks of Cyrillic, Hebrew and Arabic and a few of East Asia, and no others, so U+093C of
Devanagari is left out. Of the code points below U+40000 that no character is assigned to it has
the non-characters only, so U+0378 is left out. Full debug output escapes these too. Here they
stand for themselves, and a text that quotes such a token is shorter than the full one. What is
proved of parses does not depend on what the table holds.

## Main definitions

* `Text.invisibleRanges`: the table, as closed ranges of code points in ascending order.
* `Text.isInvisible`: membership in the table.
-/

namespace Backtrack.Text

/-- Closed ranges of code points that are written by number in quoted text. -/
def invisibleRanges : List (Nat × Nat) :=
  [ (0x0000, 0x001F), (0x007F, 0x00A0), (0x00AD, 0x00AD),
    -- combining marks of the general and the oldest script blocks
    (0x0300, 0x036F), (0x0483, 0x0489), (0x0591, 0x05BD), (0x05BF, 0x05BF),
    (0x05C1, 0x05C2), (0x05C4, 0x05C5), (0x05C7, 0x05C7),
    (0x0600, 0x0605), (0x0610, 0x061A), (0x061C, 0x061C), (0x064B, 0x065F),
    (0x0670, 0x0670), (0x06D6, 0x06DD), (0x06DF, 0x06E4), (0x06E7, 0x06E8),
    (0x06EA, 0x06ED), (0x070F, 0x070F), (0x0890, 0x0891), (0x08E2, 0x08E2),
    (0x1680, 0x1680), (0x180B, 0x180F), (0x1AB0, 0x1ACE), (0x1DC0, 0x1DFF),
    -- spaces, joiners, directional marks, line and paragraph separators
    (0x2000, 0x200F), (0x2028, 0x202F), (0x205F, 0x206F), (0x20D0, 0x20F0),
    (0x3000, 0x3000), (0x302A, 0x302F), (0x3099, 0x309A),
    -- private use, variation selectors, half marks, the byte-order mark
    (0xE000, 0xF8FF), (0xFDD0, 0xFDEF), (0xFE00, 0xFE0F), (0xFE20, 0xFE2F),
    (0xFEFF, 0xFEFF), (0xFFF0, 0xFFFB), (0xFFFE, 0xFFFF),
    (0x110BD, 0x110BD), (0x110CD, 0x110CD), (0x13430, 0x13438),
    (0x1BCA0, 0x1BCA3), (0x1D165, 0x1D169), (0x1D16D, 0x1D182),
    (0x1FFFE, 0x1FFFF), (0x2FFFE, 0x2FFFF), (0x3FFFE, 0x3FFFF),
    -- the planes past the ideographs: tags, selectors, private use
    (0x40000, 0x10FFFF) ]

/-- A character is **invisible** when one of the ranges of the table holds it. -/
def isInvisible (c : Char) : Bool :=
  invisibleRanges.any fun range => decide (range.1 ≤ c.toNat) && decide (c.toNat ≤ range.2)

/-- Membership in the table, read as a proposition. -/
theorem isInvisible_iff {c : Char} :
    isInvisible c = true ↔ ∃ r ∈ invisibleRanges, r.1 ≤ c.toNat ∧ c.toNat ≤ r.2 := by
  simp [isInvisible, List.any_eq_true]

/-- No printable ASCII character is invisible. -/
theorem isInvisible_eq_false_of_ascii {c : Char} (low : 0x20 ≤ c.toNat) (high : c.toNat < 0x7F) :
    isInvisible c = false := by
  rw [Bool.eq_false_iff, ne_eq, isInvisible_iff]
  rintro ⟨r, mem, lo, hi⟩
  simp only [invisibleRanges, List.mem_cons, List.not_mem_nil, or_false] at mem
  rcases mem with rfl | mem
  · simp at hi; omega
  · have : ∀ r ∈ invisibleRanges.tail, 0x7F ≤ r.1 := by decide
    have := this r (by simpa [invisibleRanges] using mem)
    omega

end Backtrack.Text
