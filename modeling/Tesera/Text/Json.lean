import Tesera.Text.Number

/-!
The JSON grammar over texts of numbers, shared by Python's `json` and JavaScript's
`JSON`. A parse keeps each number token and each string escape as written, and the
members of an object in order, duplicates included; what a language makes of them is
its own affair. Rendering is the compact form without whitespace.
-/

namespace Tesera.Text.Json
open Tesera.Text.Unicode Tesera.Text.Number

/-- One element of a string as written: a character standing for itself, an escape
of a character, or a backslash before a character that is no escape letter. -/
inductive Piece where
  | lit (c : Nat)
  | esc (c : Nat)
  | odd (c : Nat)
  deriving DecidableEq

/-- The three names Python's parser accepts beyond the grammar. -/
inductive Const where
  | nan
  | infinity
  | negInfinity
  deriving DecidableEq

inductive Tree where
  | null
  | bool (b : Bool)
  | const (c : Const)
  | num (token : Token)
  | str (text : List Piece)
  | arr (items : List Tree)
  | obj (members : List (List Piece × Tree))

/-- Where a parser departs from the grammar: whether it accepts the constants, which
stray escapes it accepts, and which number tokens. -/
structure Dialect where
  consts : Bool
  odd : Nat → Bool
  token : Token → Bool

/-! ## Rendering -/

def hexDigit (n : Nat) : Nat := if n < 10 then 48 + n else 87 + n

def hex4 (n : Nat) : Str :=
  [hexDigit (n / 4096 % 16), hexDigit (n / 256 % 16), hexDigit (n / 16 % 16), hexDigit (n % 16)]

/-- The letter of a two-character escape. -/
def letterOf (c : Nat) : Option Nat :=
  if c = 34 then some 34
  else if c = 92 then some 92
  else if c = 8 then some 98
  else if c = 12 then some 102
  else if c = 10 then some 110
  else if c = 13 then some 114
  else if c = 9 then some 116
  else none

def Piece.text : Piece → Str
  | .lit c => [c]
  | .esc c =>
      match letterOf c with
      | some letter => [92, letter]
      | none => 92 :: 117 :: hex4 c
  | .odd c => [92, c]

/-- A string between quotes. -/
def quote (text : List Piece) : Str := 34 :: (text.flatMap Piece.text ++ [34])

def Const.text : Const → Str
  | .nan => [78, 97, 78]
  | .infinity => [73, 110, 102, 105, 110, 105, 116, 121]
  | .negInfinity => [45, 73, 110, 102, 105, 110, 105, 116, 121]

mutual

def render : Tree → Str
  | .null => [110, 117, 108, 108]
  | .bool true => [116, 114, 117, 101]
  | .bool false => [102, 97, 108, 115, 101]
  | .const c => c.text
  | .num token => token.text
  | .str text => quote text
  | .arr [] => [91, 93]
  | .arr (x :: xs) => 91 :: (render x ++ renderItems xs)
  | .obj [] => [123, 125]
  | .obj ((k, v) :: ms) => 123 :: (quote k ++ (58 :: (render v ++ renderMembers ms)))

/-- The items after the first, with the closing bracket. -/
def renderItems : List Tree → Str
  | [] => [93]
  | x :: xs => 44 :: (render x ++ renderItems xs)

def renderMembers : List (List Piece × Tree) → Str
  | [] => [125]
  | (k, v) :: ms => 44 :: (quote k ++ (58 :: (render v ++ renderMembers ms)))

end

/-! ## Parsing -/

def isWs (c : Nat) : Bool := c == 32 || c == 9 || c == 10 || c == 13

def skipWs (text : Str) : Str := text.dropWhile isWs

def hexValue (c : Nat) : Option Nat :=
  if 48 ≤ c ∧ c ≤ 57 then some (c - 48)
  else if 97 ≤ c ∧ c ≤ 102 then some (c - 87)
  else if 65 ≤ c ∧ c ≤ 70 then some (c - 55)
  else none

/-- The character a two-character escape stands for. -/
def escapeOf (letter : Nat) : Option Nat :=
  if letter = 34 then some 34
  else if letter = 92 then some 92
  else if letter = 47 then some 47
  else if letter = 98 then some 8
  else if letter = 102 then some 12
  else if letter = 110 then some 10
  else if letter = 114 then some 13
  else if letter = 116 then some 9
  else none

def readHex4 : Str → Option (Nat × Str)
  | a :: b :: c :: d :: rest =>
      match hexValue a, hexValue b, hexValue c, hexValue d with
      | some a, some b, some c, some d => some (a * 4096 + b * 256 + c * 16 + d, rest)
      | _, _, _, _ => none
  | _ => none

/-- The escape after a backslash. -/
def readEscape (dialect : Dialect) : Str → Option (Piece × Str)
  | [] => none
  | c :: rest =>
      if c = 117 then (readHex4 rest).map (fun r => (.esc r.1, r.2))
      else
        match escapeOf c with
        | some v => some (.esc v, rest)
        | none => if dialect.odd c then some (.odd c, rest) else none

/-- The string after an opening quote, through its closing quote. Each step consumes a
character, so the length of the text bounds the steps. -/
def readString (dialect : Dialect) : Nat → Str → Option (List Piece × Str)
  | 0, _ => none
  | _ + 1, [] => none
  | fuel + 1, c :: rest =>
      if c = 34 then some ([], rest)
      else if c = 92 then
        match readEscape dialect rest with
        | none => none
        | some (piece, rest') =>
            (readString dialect fuel rest').map (fun r => (piece :: r.1, r.2))
      else if c < 32 then none
      else (readString dialect fuel rest).map (fun r => (.lit c :: r.1, r.2))

def parseString (dialect : Dialect) (text : Str) : Option (List Piece × Str) :=
  readString dialect text.length text

/-- A fixed word at the head of a text. -/
def parseLiteral (word : Str) (value : Tree) (text : Str) : Option (Tree × Str) :=
  if word.isPrefixOf text then some (value, text.drop word.length) else none

def parseNumber (dialect : Dialect) (text : Str) : Option (Tree × Str) :=
  ((lexNumber text).filter (fun r => dialect.token r.1)).map (fun r => (.num r.1, r.2))

/-- The constants of Python's parser; `-Infinity` is tried before a number. -/
def parseConst (dialect : Dialect) (text : Str) : Option (Tree × Str) :=
  if dialect.consts then
    (parseLiteral Const.nan.text (.const .nan) text).or
      ((parseLiteral Const.infinity.text (.const .infinity) text).or
        (parseLiteral Const.negInfinity.text (.const .negInfinity) text))
  else none

/-- A value that is neither array, object nor string. -/
def parseScalar (dialect : Dialect) (text : Str) : Option (Tree × Str) :=
  (parseLiteral (render (.bool true)) (.bool true) text).or
    ((parseLiteral (render (.bool false)) (.bool false) text).or
      ((parseLiteral (render .null) .null text).or
        ((parseConst dialect text).or (parseNumber dialect text))))

mutual

def parseValue (dialect : Dialect) : Nat → Str → Option (Tree × Str)
  | 0, _ => none
  | fuel + 1, text =>
      match skipWs text with
      | [] => none
      | c :: rest =>
          if c = 123 then
            match skipWs rest with
            | [] => none
            | d :: rest' =>
                if d = 125 then some (.obj [], rest')
                else (parseObject dialect fuel rest).map (fun r => (.obj r.1, r.2))
          else if c = 91 then
            match skipWs rest with
            | [] => none
            | d :: rest' =>
                if d = 93 then some (.arr [], rest')
                else (parseArray dialect fuel rest).map (fun r => (.arr r.1, r.2))
          else if c = 34 then (parseString dialect rest).map (fun r => (.str r.1, r.2))
          else parseScalar dialect (c :: rest)

/-- The items of an array, from the next one through the closing bracket. -/
def parseArray (dialect : Dialect) : Nat → Str → Option (List Tree × Str)
  | 0, _ => none
  | fuel + 1, text =>
      match parseValue dialect fuel text with
      | none => none
      | some (value, rest) =>
          match skipWs rest with
          | [] => none
          | c :: rest' =>
              if c = 44 then
                (parseArray dialect fuel rest').map (fun r => (value :: r.1, r.2))
              else if c = 93 then some ([value], rest')
              else none

/-- The members of an object, from the next one through the closing brace. -/
def parseObject (dialect : Dialect) : Nat → Str → Option (List (List Piece × Tree) × Str)
  | 0, _ => none
  | fuel + 1, text =>
      match skipWs text with
      | [] => none
      | q :: afterQuote =>
          if q = 34 then
            match parseString dialect afterQuote with
            | none => none
            | some (key, afterKey) =>
                match skipWs afterKey with
                | [] => none
                | colon :: afterColon =>
                    if colon = 58 then
                      match parseValue dialect fuel afterColon with
                      | none => none
                      | some (value, rest) =>
                          match skipWs rest with
                          | [] => none
                          | c :: rest' =>
                              if c = 44 then
                                (parseObject dialect fuel rest').map
                                  (fun r => ((key, value) :: r.1, r.2))
                              else if c = 125 then some ([(key, value)], rest')
                              else none
                    else none
          else none

end

/-- Parse a whole text; nothing but whitespace may follow the value. -/
def parse (dialect : Dialect) (text : Str) : Option Tree :=
  match parseValue dialect (2 * text.length + 2) text with
  | none => none
  | some (tree, rest) => if skipWs rest = [] then some tree else none

/-! ## Nesting -/

mutual

/-- How deeply the arrays and objects of a tree nest. -/
def depth : Tree → Nat
  | .arr items => depthItems items + 1
  | .obj members => depthMembers members + 1
  | _ => 0

def depthItems : List Tree → Nat
  | [] => 0
  | x :: xs => max (depth x) (depthItems xs)

def depthMembers : List (List Piece × Tree) → Nat
  | [] => 0
  | (_, v) :: ms => max (depth v) (depthMembers ms)

end

mutual

/-- How deeply the parser nests on a text before it returns or gives up; it is what a
limit on the recursion of a parser compares. -/
def deepest (dialect : Dialect) : Nat → Str → Nat
  | 0, _ => 0
  | fuel + 1, text =>
      match skipWs text with
      | [] => 0
      | c :: rest =>
          if c = 123 then
            match skipWs rest with
            | [] => 1
            | d :: _ => if d = 125 then 1 else deepestMember dialect fuel rest + 1
          else if c = 91 then
            match skipWs rest with
            | [] => 1
            | d :: _ => if d = 93 then 1 else deepestItem dialect fuel rest + 1
          else 0

def deepestItem (dialect : Dialect) : Nat → Str → Nat
  | 0, _ => 0
  | fuel + 1, text =>
      match parseValue dialect fuel text with
      | none => deepest dialect fuel text
      | some (_, rest) =>
          match skipWs rest with
          | [] => deepest dialect fuel text
          | c :: rest' =>
              if c = 44 then max (deepest dialect fuel text) (deepestItem dialect fuel rest')
              else deepest dialect fuel text

def deepestMember (dialect : Dialect) : Nat → Str → Nat
  | 0, _ => 0
  | fuel + 1, text =>
      match skipWs text with
      | [] => 0
      | q :: afterQuote =>
          if q = 34 then
            match parseString dialect afterQuote with
            | none => 0
            | some (_, afterKey) =>
                match skipWs afterKey with
                | [] => 0
                | colon :: afterColon =>
                    if colon = 58 then
                      match parseValue dialect fuel afterColon with
                      | none => deepest dialect fuel afterColon
                      | some (_, rest) =>
                          match skipWs rest with
                          | [] => deepest dialect fuel afterColon
                          | c :: rest' =>
                              if c = 44 then
                                max (deepest dialect fuel afterColon)
                                  (deepestMember dialect fuel rest')
                              else deepest dialect fuel afterColon
                    else 0
          else 0

end

/-- The nesting of the parser on a whole text. -/
def nesting (dialect : Dialect) (text : Str) : Nat := deepest dialect (2 * text.length + 2) text

end Tesera.Text.Json
