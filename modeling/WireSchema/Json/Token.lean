import WireSchema.Json.Numeral
import WireSchema.Text.Utf16

/-! A machine that reads one character at a time. A run of characters between blanks and punctuation is
a word: a literal name or a number. -/

namespace WireSchema.Json

inductive Token where
  | beginArray
  | endArray
  | beginObject
  | endObject
  | colon
  | comma
  | text (s : String)
  | atom (value : Json)

namespace Token

/-- What the machine is reading. Characters already read are held latest first. -/
inductive Reading where
  | gap
  | word (read : List Char)
  | text (read : List Char)
  | escape (read : List Char)
  /-- Inside the four digits of a unit, after the first half of a pair if there was one. -/
  | unit (read : List Char) (high : Option UInt16) (digits : List Nat)
  | pair (read : List Char) (high : UInt16)
  | pairMark (read : List Char) (high : UInt16)

def isBlank (c : Char) : Bool := c = ' ' || c = '\n' || c = '\t' || c = '\r'

def ofPunctuation? (c : Char) : Option Token :=
  match c with
  | '[' => some .beginArray
  | ']' => some .endArray
  | '\x7b' => some .beginObject
  | '\x7d' => some .endObject
  | ':' => some .colon
  | ',' => some .comma
  | _ => none

def ofWord? (word : List Char) : Option Token :=
  match String.ofList word with
  | "null" => some (.atom .null)
  | "true" => some (.atom (.bool true))
  | "false" => some (.atom (.bool false))
  | _ => (Numeral.read? word).map .atom

def ofEscape? (c : Char) : Option Char :=
  match c with
  | '"' => some '"'
  | '\\' => some '\\'
  | '/' => some '/'
  | 'b' => some '\x08'
  | 'f' => some '\x0c'
  | 'n' => some '\n'
  | 'r' => some '\r'
  | 't' => some '\t'
  | _ => none

def hexDigit? (c : Char) : Option Nat :=
  if c.isDigit then some (c.toNat - '0'.toNat)
  else if 'a' ≤ c ∧ c ≤ 'f' then some (c.toNat - 'a'.toNat + 10)
  else if 'A' ≤ c ∧ c ≤ 'F' then some (c.toNat - 'A'.toNat + 10)
  else none

structure Scan where
  reading : Reading := .gap
  tokens : List Token := []

def Scan.start? (tokens : List Token) (c : Char) : Option Scan :=
  if isBlank c then some ⟨.gap, tokens⟩
  else if c = '"' then some ⟨.text [], tokens⟩
  else match ofPunctuation? c with
    | some t => some ⟨.gap, t :: tokens⟩
    | none => some ⟨.word [c], tokens⟩

def Scan.endUnit? (tokens : List Token) (read : List Char) (high : Option UInt16) (u : UInt16) :
    Option Scan :=
  match high with
  | some h => if Utf16.isLow u then some ⟨.text (Utf16.pair h u :: read), tokens⟩ else none
  | none =>
    if Utf16.isHigh u then some ⟨.pair read u, tokens⟩
    else if Utf16.isLow u then none
    else some ⟨.text (Char.ofNat u.toNat :: read), tokens⟩

def Scan.step? (s : Scan) (c : Char) : Option Scan :=
  match s.reading with
  | .gap => start? s.tokens c
  | .word read =>
    if isBlank c || c = '"' || (ofPunctuation? c).isSome then
      (ofWord? read.reverse).bind fun t => start? (t :: s.tokens) c
    else some { s with reading := .word (c :: read) }
  | .text read =>
    if c = '"' then some ⟨.gap, .text (String.ofList read.reverse) :: s.tokens⟩
    else if c = '\\' then some { s with reading := .escape read }
    else if c.toNat < 0x20 then none
    else some { s with reading := .text (c :: read) }
  | .escape read =>
    if c = 'u' then some { s with reading := .unit read none [] }
    else (ofEscape? c).map fun d => { s with reading := .text (d :: read) }
  | .unit read high digits =>
    (hexDigit? c).bind fun d =>
      if digits.length < 3 then some { s with reading := .unit read high (digits ++ [d]) }
      else endUnit? s.tokens read high (UInt16.ofNat ((digits ++ [d]).foldl (16 * · + ·) 0))
  | .pair read high => if c = '\\' then some { s with reading := .pairMark read high } else none
  | .pairMark read high =>
    if c = 'u' then some { s with reading := .unit read (some high) [] } else none

/-- Ends the text: an open word is complete, an open string is not. -/
def Scan.finish? (s : Scan) : Option (List Token) :=
  match s.reading with
  | .gap => some s.tokens.reverse
  | .word read => (ofWord? read.reverse).map fun t => (t :: s.tokens).reverse
  | _ => none

def scan? (text : List Char) : Option (List Token) :=
  (text.foldlM Scan.step? {}).bind Scan.finish?

end Token

end WireSchema.Json
