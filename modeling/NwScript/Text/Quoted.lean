-- Text between double quotes. Whatever cannot be seen, or would join the character before it, is
-- written by its code point.
import NwScript.Text.GraphemeExtend
import NwScript.Text.Printable

namespace NwScript.Text

/-- The code point in hexadecimal between braces, after a backslash and a `u`. -/
def codePoint (c : Char) : List Char :=
  ['\\', 'u', '\x7b'] ++ Nat.toDigits 16 c.toNat ++ ['\x7d']

/-- The halfwidth sound marks belong to the character before them, but stand in a cell of their
own. -/
def soundMarks : CharClass := [(0xff9e, 0xff9f)]

/-- The letters that only fill a place and are not drawn, all of them of the Korean script. -/
def fillers : CharClass := [(0x115f, 0x1160), (0x3164, 0x3164), (0xffa0, 0xffa0)]

/-- Whether a character would be drawn over the one before it. -/
def joins (c : Char) : Bool := graphemeExtend.contains c && !soundMarks.contains c

/-- Whether a character can be seen. -/
def visible (c : Char) : Bool := printable.contains c && !fillers.contains c

/-- How one character stands inside quotes. -/
def quotedChar (c : Char) : List Char :=
  if c = '\x00' then ['\\', '0']
  else if c = '\t' then ['\\', 't']
  else if c = '\r' then ['\\', 'r']
  else if c = '\n' then ['\\', 'n']
  else if c = '\\' then ['\\', '\\']
  else if c = '"' then ['\\', '"']
  else if joins c then codePoint c
  else if visible c then [c]
  else codePoint c

/-- A text between double quotes. -/
def quoted (s : String) : String :=
  String.ofList ('"' :: s.toList.flatMap quotedChar ++ ['"'])

end NwScript.Text
