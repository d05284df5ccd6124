import WireSchema.Assoc
import WireSchema.Json.Token

/-! A stack machine over tokens; the stack holds the arrays and objects that are still open, at most
`maxDepth` of them. A member that comes again replaces the value of the first and keeps its place. -/

namespace WireSchema.Json

def maxDepth : Nat := 127

/-- An array or object that is still open. An array holds its items latest first, an object the name of
its latest member. -/
inductive Frame where
  | array (items : List Json)
  | object (members : List (String × Json)) (name : String)

inductive Expected where
  | value
  | itemOrEnd
  | nameOrEnd
  | name
  | colon
  | commaOrEnd
  | nothing (document : Json)

structure Machine where
  stack : List Frame := []
  expected : Expected := .value

namespace Machine

def complete (stack : List Frame) (v : Json) : Machine :=
  match stack with
  | [] => ⟨[], .nothing v⟩
  | .array items :: rest => ⟨.array (v :: items) :: rest, .commaOrEnd⟩
  | .object members name :: rest => ⟨.object (Assoc.insert name v members) name :: rest, .commaOrEnd⟩

def begin? (stack : List Frame) : Token → Option Machine
  | .text s => some (complete stack (.text s))
  | .atom v => some (complete stack v)
  | .beginArray =>
    if stack.length < maxDepth then some ⟨.array [] :: stack, .itemOrEnd⟩ else none
  | .beginObject =>
    if stack.length < maxDepth then some ⟨.object [] "" :: stack, .nameOrEnd⟩ else none
  | _ => none

def close? (stack : List Frame) (t : Token) : Option Machine :=
  match stack, t with
  | .array items :: rest, .endArray => some (complete rest (.array items.reverse))
  | .object members _ :: rest, .endObject => some (complete rest (.object members))
  | _, _ => none

def name? (stack : List Frame) (t : Token) : Option Machine :=
  match stack, t with
  | .object members _ :: rest, .text s => some ⟨.object members s :: rest, .colon⟩
  | _, _ => none

def step? (m : Machine) (t : Token) : Option Machine :=
  match m.expected, t with
  | .value, t => begin? m.stack t
  | .itemOrEnd, .endArray => close? m.stack .endArray
  | .itemOrEnd, t => begin? m.stack t
  | .nameOrEnd, .endObject => close? m.stack .endObject
  | .nameOrEnd, t => name? m.stack t
  | .name, t => name? m.stack t
  | .colon, .colon => some { m with expected := .value }
  | .colon, _ => none
  | .commaOrEnd, .comma =>
    match m.stack with
    | .array _ :: _ => some { m with expected := .value }
    | .object _ _ :: _ => some { m with expected := .name }
    | [] => none
  | .commaOrEnd, t => close? m.stack t
  | .nothing _, _ => none

def result? (m : Machine) : Option Json :=
  match m.expected with
  | .nothing document => some document
  | _ => none

end Machine

def parse? (text : String) : Option Json :=
  (Token.scan? text.toList).bind fun tokens =>
    (tokens.foldlM Machine.step? {}).bind Machine.result?

end WireSchema.Json
