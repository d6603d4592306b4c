import LeaseOverlay.Text.Hex
import LeaseOverlay.Text.Reading

namespace LeaseOverlay.Toml

def isBlank (c : Char) : Bool := c = ' ' || c = '\t'

def isPlain (c : Char) : Bool := c = '\t' || (0x20 ≤ c.toNat && c ≠ '\x7f')

def skipBlanks (cs : List Char) : List Char := cs.dropWhile isBlank

def newline? : List Char → Option (List Char)
  | '\n' :: cs => some cs
  | '\r' :: '\n' :: cs => some cs
  | _ => none

def skipComment : List Char → List Char
  | '#' :: cs => cs.dropWhile isPlain
  | cs => cs

def skipLines : Nat → List Char → List Char
  | 0, cs => cs
  | n + 1, cs =>
    match newline? (skipComment (skipBlanks cs)) with
    | some rest => skipLines n rest
    | none => skipBlanks cs

def endLine? (cs : List Char) : Option (List Char) :=
  match skipComment (skipBlanks cs) with
  | [] => some []
  | cs => newline? cs

def hexRun : Nat → Nat → Reading Nat
  | 0, value, cs => some (value, cs)
  | _ + 1, _, [] => none
  | n + 1, value, c :: cs => (Hex.value? c).bind fun h => hexRun n (16 * value + h) cs

def codePoint (digits : Nat) : Reading Char := fun cs =>
  (hexRun digits 0 cs).bind fun r => if r.1.isValidChar then some (Char.ofNat r.1, r.2) else none

def escape : Reading Char
  | 'b' :: cs => some ('\x08', cs)
  | 't' :: cs => some ('\t', cs)
  | 'n' :: cs => some ('\n', cs)
  | 'f' :: cs => some ('\x0c', cs)
  | 'r' :: cs => some ('\r', cs)
  | '"' :: cs => some ('"', cs)
  | '\\' :: cs => some ('\\', cs)
  | 'u' :: cs => codePoint 4 cs
  | 'U' :: cs => codePoint 8 cs
  | _ => none

def basic : Nat → List Char → Reading String
  | 0, _, _ => none
  | _ + 1, _, [] => none
  | n + 1, done, c :: cs =>
    if c = '"' then some (String.ofList done.reverse, cs)
    else if c = '\\' then (escape cs).bind fun r => basic n (r.1 :: done) r.2
    else if isPlain c then basic n (c :: done) cs
    else none

def literal : List Char → Reading String
  | _, [] => none
  | done, c :: cs =>
    if c = '\'' then some (String.ofList done.reverse, cs)
    else if isPlain c then literal (c :: done) cs
    else none

/-- A run of quotes in a text of several lines: three close it, up to two before them belong to the
text. The number tells how many belong to it, the flag whether it is closed. -/
def quotes (q : Char) (cs : List Char) : Nat × Bool × List Char :=
  let run := (cs.takeWhile (· = q)).length
  if run < 3 then (run, false, cs.drop run)
  else
    let inner := min (run - 3) 2
    (inner, true, cs.drop (inner + 3))

def skipGap : Nat → List Char → List Char
  | 0, cs => cs
  | n + 1, cs =>
    match newline? (skipBlanks cs) with
    | some rest => skipGap n rest
    | none => skipBlanks cs

def continuation? (cs : List Char) : Option (List Char) :=
  (newline? (skipBlanks cs)).map fun rest => skipGap rest.length rest

def multiline : Nat → List Char → Reading String
  | 0, _, _ => none
  | _ + 1, _, [] => none
  | n + 1, done, c :: cs =>
    if c = '"' then
      match quotes '"' (c :: cs) with
      | (inner, true, rest) =>
        some (String.ofList (List.replicate inner '"' ++ done).reverse, rest)
      | (inner, false, rest) => multiline n (List.replicate inner '"' ++ done) rest
    else if c = '\\' then
      match continuation? cs with
      | some rest => multiline n done rest
      | none => (escape cs).bind fun r => multiline n (r.1 :: done) r.2
    else match newline? (c :: cs) with
      | some rest => multiline n ('\n' :: done) rest
      | none => if isPlain c then multiline n (c :: done) cs else none

def multilineLiteral : Nat → List Char → Reading String
  | 0, _, _ => none
  | _ + 1, _, [] => none
  | n + 1, done, c :: cs =>
    if c = '\'' then
      match quotes '\'' (c :: cs) with
      | (inner, true, rest) =>
        some (String.ofList (List.replicate inner '\'' ++ done).reverse, rest)
      | (inner, false, rest) => multilineLiteral n (List.replicate inner '\'' ++ done) rest
    else match newline? (c :: cs) with
      | some rest => multilineLiteral n ('\n' :: done) rest
      | none => if isPlain c then multilineLiteral n (c :: done) cs else none

/-- The text after an opening triple quote: a line end right behind it does not count. -/
def afterOpening (cs : List Char) : List Char := (newline? cs).getD cs

def string : Reading String
  | '"' :: '"' :: '"' :: cs => multiline (cs.length + 1) [] (afterOpening cs)
  | '"' :: cs => basic (cs.length + 1) [] cs
  | '\'' :: '\'' :: '\'' :: cs => multilineLiteral (cs.length + 1) [] (afterOpening cs)
  | '\'' :: cs => literal [] cs
  | _ => none

def isKeyChar (c : Char) : Bool := c.isAlphanum || c = '_' || c = '-'

def simpleKey : Reading String
  | '"' :: cs => basic (cs.length + 1) [] cs
  | '\'' :: cs => literal [] cs
  | cs =>
    match cs.takeWhile isKeyChar with
    | [] => none
    | k => some (String.ofList k, cs.dropWhile isKeyChar)

def keyParts : Nat → Reading (List String)
  | 0, _ => none
  | n + 1, cs =>
    match simpleKey (skipBlanks cs) with
    | none => none
    | some (k, rest) =>
      match skipBlanks rest with
      | '.' :: rest => (keyParts n rest).map fun r => (k :: r.1, r.2)
      | rest => some ([k], rest)

def depthLimit : Nat := 79

def key : Reading (List String) := keyParts depthLimit

end LeaseOverlay.Toml
