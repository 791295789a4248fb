/-!
# Quoted text

Text between quotes, with a backslash before the quote and the backslash and with escapes for
characters that have no shape of their own. Single quotes are used unless the text holds one and
no double quote.
-/
namespace Treewalk.Text

/-- The quote character around a text. -/
def quoteFor (cs : List Char) : Char :=
  if '\x27' ∈ cs ∧ '\x22' ∉ cs then '\x22' else '\x27'

/-- Ranges of code points above ASCII without a shape: controls, spaces other than the blank,
format characters, surrogates, private use and non-characters. -/
def shapeless : List (Nat × Nat) :=
  [(0x7f, 0xa0), (0xad, 0xad), (0x378, 0x379), (0x380, 0x383), (0x38b, 0x38b), (0x38d, 0x38d),
   (0x3a2, 0x3a2), (0x530, 0x530), (0x557, 0x558), (0x58b, 0x58c), (0x590, 0x590),
   (0x5c8, 0x5cf), (0x5eb, 0x5ee), (0x5f5, 0x605), (0x61c, 0x61c), (0x6dd, 0x6dd),
   (0x70e, 0x70f), (0x1680, 0x1680), (0x180e, 0x180e), (0x2000, 0x200f), (0x2028, 0x202f),
   (0x205f, 0x206f), (0x2072, 0x2073), (0x208f, 0x208f), (0x209d, 0x209f), (0x3000, 0x3000),
   (0xa48d, 0xa48f), (0xd7a4, 0xd7af), (0xd7c7, 0xd7ca), (0xd7fc, 0xf8ff), (0xfa6e, 0xfa6f),
   (0xfada, 0xfaff), (0xfdd0, 0xfdef), (0xfeff, 0xfeff), (0xfff0, 0xfffb), (0xfffe, 0xffff),
   (0x1fffe, 0x1ffff), (0x2fffe, 0x2ffff), (0x323b0, 0xe00ff), (0xe01f0, 0x10ffff)]

/-- Whether a character is written as itself. -/
def hasShape (c : Char) : Bool :=
  0x20 ≤ c.toNat && !shapeless.any fun (low, high) => low ≤ c.toNat && c.toNat ≤ high

/-- Hexadecimal digits of a code point, at least `width` of them. -/
def hex (width n : Nat) : List Char :=
  let ds := Nat.toDigits 16 n
  List.replicate (width - ds.length) '0' ++ ds

/-- One character between quotes. -/
def quoteChar (quote c : Char) : List Char :=
  if c = quote ∨ c = '\\' then ['\\', c]
  else if c = '\n' then ['\\', 'n']
  else if c = '\r' then ['\\', 'r']
  else if c = '\t' then ['\\', 't']
  else if hasShape c then [c]
  else if c.toNat < 0x100 then '\\' :: 'x' :: hex 2 c.toNat
  else if c.toNat < 0x10000 then '\\' :: 'u' :: hex 4 c.toNat
  else '\\' :: 'U' :: hex 8 c.toNat

/-- A text in quotes. -/
def quote (s : String) : String :=
  let q := quoteFor s.toList
  String.ofList (q :: s.toList.flatMap (quoteChar q) ++ [q])

example : quote "a" = "'a'" := by decide +kernel

example : quote "it\x27s" = "\x22it's\x22" := by decide +kernel

end Treewalk.Text
