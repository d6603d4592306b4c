import LeaseOverlay.Json.Token
/-!
JSON values: trees that keep the order and the repetitions of object fields. A value is read from
its tokens with an explicit stack of open brackets, so nesting costs no recursion.
-/

namespace LeaseOverlay.Json

inductive Value
  | null
  | bool (b : Bool)
  | number (n : Number)
  | text (t : Text)
  | array (items : List Value)
  | object (fields : List (Text × Value))

/-- An open bracket with what it holds so far, last first; `field` is a key without its value. -/
inductive Open
  | array (items : List Value)
  | object (fields : List (Text × Value))
  | field (key : Text) (fields : List (Text × Value))

inductive Expect
  | value
  | item
  | firstKey
  | key
  | colon (key : Text)
  | rest (v : Value)

namespace Value

def start (stack : List Open) : Token → Option (Expect × List Open)
  | .openArray => some (.item, .array [] :: stack)
  | .openObject => some (.firstKey, .object [] :: stack)
  | .null => some (.rest .null, stack)
  | .bool b => some (.rest (.bool b), stack)
  | .number n => some (.rest (.number n), stack)
  | .text t => some (.rest (.text t), stack)
  | _ => none

def next (v : Value) : List Open → Token → Option (Expect × List Open)
  | .array vs :: stack, .comma => some (.value, .array (v :: vs) :: stack)
  | .array vs :: stack, .closeArray => some (.rest (.array (v :: vs).reverse), stack)
  | .field k fs :: stack, .comma => some (.key, .object ((k, v) :: fs) :: stack)
  | .field k fs :: stack, .closeObject => some (.rest (.object ((k, v) :: fs).reverse), stack)
  | _, _ => none

def step : Expect → List Open → Token → Option (Expect × List Open)
  | .value, stack, t => start stack t
  | .item, .array [] :: stack, .closeArray => some (.rest (.array []), stack)
  | .item, stack, t => start stack t
  | .firstKey, .object [] :: stack, .closeObject => some (.rest (.object []), stack)
  | .firstKey, stack, .text k => some (.colon k, stack)
  | .key, stack, .text k => some (.colon k, stack)
  | .colon k, .object fs :: stack, .colon => some (.value, .field k fs :: stack)
  | .rest v, stack, t => next v stack t
  | _, _, _ => none

def ofTokensFrom : Expect → List Open → List Token → Option Value
  | .rest v, [], [] => some v
  | _, _, [] => none
  | e, stack, t :: ts =>
    match step e stack t with
    | none => none
    | some (e, stack) => ofTokensFrom e stack ts

def ofTokens? (ts : List Token) : Option Value := ofTokensFrom .value [] ts

def parse? (bs : List UInt8) : Option Value := (Token.ofBytes? bs).bind ofTokens?

mutual

def tokens : Value → List Token
  | .null => [.null]
  | .bool b => [.bool b]
  | .number n => [.number n]
  | .text t => [.text t]
  | .array vs => .openArray :: (itemTokens vs ++ [.closeArray])
  | .object fs => .openObject :: (fieldTokens fs ++ [.closeObject])

def itemTokens : List Value → List Token
  | [] => []
  | [v] => v.tokens
  | v :: w :: vs => v.tokens ++ .comma :: itemTokens (w :: vs)

def fieldTokens : List (Text × Value) → List Token
  | [] => []
  | [(k, v)] => .text k :: .colon :: v.tokens
  | (k, v) :: f :: fs => .text k :: .colon :: (v.tokens ++ .comma :: fieldTokens (f :: fs))

end

def render (v : Value) : List UInt8 := v.tokens.flatMap Token.render

mutual

def plain : Value → Bool
  | .text t => t.plain
  | .array vs => plainItems vs
  | .object fs => plainFields fs
  | _ => true

def plainItems : List Value → Bool
  | [] => true
  | v :: vs => v.plain && plainItems vs

def plainFields : List (Text × Value) → Bool
  | [] => true
  | (k, v) :: fs => k.plain && v.plain && plainFields fs

end

def ofString (s : String) : Value := .text (.ofString s)

def ofNat (n : Nat) : Value := .number (.ofNat n)

def ofInt (i : Int) : Value := .number (.ofInt i)

def ofBytes (bs : List UInt8) : Value := .array (bs.map fun b => ofNat b.toNat)

def ofFields (fs : List (String × Value)) : Value :=
  .object (fs.map fun f => (.ofString f.1, f.2))

end Value

end LeaseOverlay.Json
