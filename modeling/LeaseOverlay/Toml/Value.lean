import LeaseOverlay.Toml.Lexical

namespace LeaseOverlay.Toml

inductive Value
  | string (s : String)
  | integer (i : Int)
  | float (text : String)
  | boolean (b : Bool)
  | moment (text : String)
  | array (items : List Value)
  | table (fields : List (String × Value))

/-- A table while the document is read. It is implicit until its own header comes, and dotted if a
dotted key made it. The elements of an array of tables stand with the newest first. -/
inductive Entry
  | value (v : Value)
  | table (implicit dotted : Bool) (fields : List (String × Entry))
  | tables (elements : List (List (String × Entry)))

abbrev Fields := List (String × Entry)

namespace Entry

mutual

def toValue : Entry → Value
  | value v => v
  | table _ _ fs => .table (fieldValues fs)
  | tables es => .array (elementValues es).reverse

def fieldValues : List (String × Entry) → List (String × Value)
  | [] => []
  | (k, e) :: fs => (k, e.toValue) :: fieldValues fs

def elementValues : List (List (String × Entry)) → List Value
  | [] => []
  | fs :: es => .table (fieldValues fs) :: elementValues es

end

end Entry

namespace Fields

def put (k : String) (e : Entry) (fs : Fields) : Fields :=
  fs.filter (fun f => f.1 ≠ k) ++ [(k, e)]

/-- Changes the table at a path with `f`, which hears whether the table is dotted. Missing tables
are made on the way. A dotted key may not pass through a table that has a header. -/
def update {α : Type} (dotted : Bool) (f : Bool → Fields → Option (Fields × α)) :
    List String → Bool → Fields → Option (Fields × α)
  | [], isDotted, fs => f isDotted fs
  | k :: ks, _, fs =>
    match fs.lookup k with
    | none => (update dotted f ks dotted []).map fun r => (fs.put k (.table true dotted r.1), r.2)
    | some (.value _) => none
    | some (.table implicit isDotted sub) =>
      if dotted ∧ ¬implicit then none
      else (update dotted f ks isDotted sub).map fun r =>
        (fs.put k (.table implicit isDotted r.1), r.2)
    | some (.tables []) => none
    | some (.tables (sub :: es)) => (update dotted f ks false sub).map fun r =>
      (fs.put k (.tables (r.1 :: es)), r.2)

def define (path : List String) (v : Value) (fs : Fields) : Option Fields :=
  match path.getLast? with
  | none => none
  | some k =>
    let above := path.dropLast
    (update true (fun isDotted fs =>
      if isDotted = above.isEmpty ∨ (fs.lookup k).isSome then none
      else some (fs.put k (.value v), ())) above false fs).map (·.1)

end Fields

def digitRun (isDigit : Char → Bool) : Nat → List Char → Reading (List Char)
  | 0, _, _ => none
  | _ + 1, [], [] => none
  | _ + 1, done, [] => some (done.reverse, [])
  | n + 1, done, c :: cs =>
    if isDigit c then digitRun isDigit n (c :: done) cs
    else if c = '_' ∧ ¬done.isEmpty then
      match cs with
      | d :: cs => if isDigit d then digitRun isDigit n (d :: done) cs else none
      | [] => none
    else if done.isEmpty then none
    else some (done.reverse, c :: cs)

def digits (isDigit : Char → Bool) : Reading (List Char) := fun cs =>
  digitRun isDigit (cs.length + 1) [] cs

def ofDigits (base : Nat) (ds : List Char) : Nat :=
  ds.foldl (fun n c => base * n + (Hex.value? c).getD 0) 0

def integer? (negative : Bool) (n : Nat) : Option Value :=
  if negative then if n ≤ 0x8000000000000000 then some (.integer (-n)) else none
  else if n < 0x8000000000000000 then some (.integer n) else none

def radix (base : Nat) (isDigit : Char → Bool) : Reading Value := fun cs => do
  let (ds, rest) ← digits isDigit cs
  let v ← integer? false (ofDigits base ds)
  return (v, rest)

/-- Whether a positive number rounds to infinity among the floats of sixty-four bits: it is no less
than the middle between the largest of them and the next power of two. -/
def overflows (mantissa : Nat) (scale : Int) : Bool :=
  let bound := Nat.pow 2 1024 - Nat.pow 2 970
  if mantissa = 0 then false
  else if 0 ≤ scale then 400 < scale || bound ≤ mantissa * Nat.pow 10 scale.toNat
  else
    let places := (Nat.toDigits 10 mantissa).length
    scale.natAbs < places && bound * Nat.pow 10 scale.natAbs ≤ mantissa

def fraction : Reading (List Char)
  | '.' :: cs => digits Char.isDigit cs
  | cs => some ([], cs)

def exponent : Reading (Option Int)
  | c :: cs =>
    if c = 'e' ∨ c = 'E' then
      let (negative, cs) := match cs with
        | '-' :: cs => (true, cs)
        | '+' :: cs => (false, cs)
        | cs => (false, cs)
      (digits Char.isDigit cs).map fun r =>
        let n := ofDigits 10 r.1
        (some (if negative then -n else n), r.2)
    else some (none, c :: cs)
  | [] => some (none, [])

def consumed (cs rest : List Char) : String := String.ofList (cs.take (cs.length - rest.length))

def decimal (negative : Bool) : Reading Value := fun cs => do
  let (whole, afterWhole) ← digits Char.isDigit cs
  if whole.head? = some '0' ∧ whole.length ≠ 1 then none
  let (part, afterPart) ← fraction afterWhole
  let (power, rest) ← exponent afterPart
  if part.isEmpty ∧ power.isNone then
    let v ← integer? negative (ofDigits 10 whole)
    return (v, rest)
  else
    let scale : Int := power.getD 0 - part.length
    if ¬negative ∧ overflows (ofDigits 10 (whole ++ part)) scale then none
    return (.float (consumed cs rest), rest)

def special : Reading Value
  | 'i' :: 'n' :: 'f' :: rest => some (.float "inf", rest)
  | 'n' :: 'a' :: 'n' :: rest => some (.float "nan", rest)
  | _ => none

def number : Reading Value
  | '0' :: 'x' :: cs => radix 16 (fun c => (Hex.value? c).isSome) cs
  | '0' :: 'o' :: cs => radix 8 (fun c => '0' ≤ c && c ≤ '7') cs
  | '0' :: 'b' :: cs => radix 2 (fun c => c = '0' || c = '1') cs
  | '-' :: cs => (special cs).or (decimal true cs)
  | '+' :: cs => (special cs).or (decimal false cs)
  | cs => decimal false cs

def fixed (places lo hi : Nat) : Reading Nat := fun cs =>
  let ds := cs.take places
  let n := ofDigits 10 ds
  if ds.length = places ∧ ds.all Char.isDigit ∧ lo ≤ n ∧ n ≤ hi then some (n, cs.drop places)
  else none

def daysIn (year month : Nat) : Nat :=
  if month = 2 then
    if year % 4 = 0 ∧ (year % 100 ≠ 0 ∨ year % 400 = 0) then 29 else 28
  else if month = 4 ∨ month = 6 ∨ month = 9 ∨ month = 11 then 30
  else 31

def date (cs : List Char) : Option (List Char) := do
  let (year, cs) ← fixed 4 0 9999 cs
  let cs ← Reading.skip '-' cs
  let (month, cs) ← fixed 2 1 12 cs
  let cs ← Reading.skip '-' cs
  let (_, cs) ← fixed 2 1 (daysIn year month) cs
  return cs

def secondsFraction : List Char → List Char
  | '.' :: cs => if (cs.takeWhile Char.isDigit).isEmpty then '.' :: cs else cs.dropWhile Char.isDigit
  | cs => cs

def timeOfDay (cs : List Char) : Option (List Char) := do
  let (_, cs) ← fixed 2 0 23 cs
  let cs ← Reading.skip ':' cs
  let (_, cs) ← fixed 2 0 59 cs
  let cs ← Reading.skip ':' cs
  let (_, cs) ← fixed 2 0 60 cs
  return secondsFraction cs

def offset (cs : List Char) : Option (List Char) :=
  match cs with
  | 'Z' :: cs | 'z' :: cs => some cs
  | '+' :: cs | '-' :: cs => do
    let (_, cs) ← fixed 2 0 23 cs
    let cs ← Reading.skip ':' cs
    let (_, cs) ← fixed 2 0 59 cs
    return cs
  | cs => some cs

def timeAfterDate : List Char → Option (List Char)
  | c :: cs =>
    if c = 'T' ∨ c = 't' ∨ c = ' ' then
      match timeOfDay cs with
      | some rest => offset rest
      | none => some (c :: cs)
    else some (c :: cs)
  | [] => some []

def moment : Reading Value := fun cs =>
  (((date cs).bind timeAfterDate).or (timeOfDay cs)).map fun rest =>
    (.moment (consumed cs rest), rest)

def word : Reading Value
  | 't' :: 'r' :: 'u' :: 'e' :: cs => some (.boolean true, cs)
  | 'f' :: 'a' :: 'l' :: 's' :: 'e' :: cs => some (.boolean false, cs)
  | cs => special cs

def scalar : Reading Value := fun cs =>
  match cs with
  | [] => none
  | c :: _ =>
    if c = '"' ∨ c = '\'' then (string cs).map fun r => (.string r.1, r.2)
    else if c = '+' ∨ c = '-' ∨ c.isDigit then (moment cs).or (number cs)
    else word cs

mutual

/-- Reads a value. `depth` bounds its nesting, `fuel` the length of its text. -/
def value (fuel depth : Nat) (cs : List Char) : Option (Value × List Char) :=
  match fuel with
  | 0 => none
  | fuel + 1 =>
    match cs, depth with
    | '[' :: cs, depth + 1 => items fuel depth [] cs
    | '\x7b' :: cs, depth + 1 =>
      match skipBlanks cs with
      | '\x7d' :: rest => some (.table [], rest)
      | cs => inlineFields fuel depth [] cs
    | '[' :: _, 0 => none
    | '\x7b' :: _, 0 => none
    | cs, _ => scalar cs

def items (fuel depth : Nat) (done : List Value) (cs : List Char) :
    Option (Value × List Char) :=
  match fuel with
  | 0 => none
  | fuel + 1 =>
    match skipLines cs.length cs with
    | ']' :: rest => some (.array done.reverse, rest)
    | cs =>
      match value fuel depth cs with
      | none => none
      | some (v, rest) =>
        match skipLines rest.length rest with
        | ',' :: rest => items fuel depth (v :: done) rest
        | ']' :: rest => some (.array (v :: done).reverse, rest)
        | _ => none

def inlineFields (fuel depth : Nat) (done : Fields) (cs : List Char) :
    Option (Value × List Char) :=
  match fuel with
  | 0 => none
  | fuel + 1 =>
    match key cs with
    | some (path, '=' :: rest) =>
      match value fuel depth (skipBlanks rest) with
      | none => none
      | some (v, rest) =>
        match done.define path v, skipBlanks rest with
        | some done, ',' :: rest => inlineFields fuel depth done rest
        | some done, '\x7d' :: rest => some (.table (Entry.fieldValues done), rest)
        | _, _ => none
    | _ => none

end

end LeaseOverlay.Toml
