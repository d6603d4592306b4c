import LeaseOverlay.Text.Hex
import LeaseOverlay.Text.Printable
/-!
Text between double quotes as error messages show it: quote, backslash and the four common controls
have short escapes, other unprintable characters are written by code point, all else stands as it is.
-/

namespace LeaseOverlay

namespace Quoted

def codePoint (c : Char) : List Char :=
  ['\\', 'u', '\x7b'] ++ Hex.ofNat c.toNat ++ ['\x7d']

def escape (c : Char) : List Char :=
  if c = '"' then ['\\', '"']
  else if c = '\\' then ['\\', '\\']
  else if c = '\t' then ['\\', 't']
  else if c = '\n' then ['\\', 'n']
  else if c = '\r' then ['\\', 'r']
  else if c = '\x00' then ['\\', '0']
  else if isPrintable c then [c]
  else codePoint c

end Quoted

def quoted (s : String) : String :=
  String.ofList (['"'] ++ s.toList.flatMap Quoted.escape ++ ['"'])

end LeaseOverlay
