import WireSchema.Assoc

/-! A command takes each of its options once, in any order and in any of the usual ways. An argument
that starts with a dash is never the value of the option before it, except for the dash alone. -/

namespace WireSchema.Cli

inductive Command where
  | check (schema : String)
  | inspect (schema : String)
  | size (schema value : String)
  | encode (schema value output : String)
  | decode (schema input : String)
deriving DecidableEq, Repr

inductive Request where
  | version
  | command (command : Command)
deriving DecidableEq, Repr

inductive PathOption where
  | schema
  | value
  | output
  | input
deriving DecidableEq, Repr

namespace PathOption

def long : PathOption → String
  | schema => "schema"
  | value => "value"
  | output => "output"
  | input => "input"

def short : PathOption → Char
  | schema => 's'
  | value => 'j'
  | output => 'o'
  | input => 'i'

end PathOption

inductive CommandName where
  | check
  | inspect
  | size
  | encode
  | decode
deriving DecidableEq, Repr

namespace CommandName

def all : List CommandName := [check, inspect, size, encode, decode]

def text : CommandName → String
  | check => "check"
  | inspect => "inspect"
  | size => "size"
  | encode => "encode"
  | decode => "decode"

def ofText? (text : String) : Option CommandName := all.find? fun name => name.text == text

def options : CommandName → List PathOption
  | check | inspect => [.schema]
  | size => [.schema, .value]
  | encode => [.schema, .value, .output]
  | decode => [.schema, .input]

def command? (name : CommandName) (paths : List (PathOption × String)) : Option Command := do
  let schema ← paths.lookup .schema
  match name with
  | check => return .check schema
  | inspect => return .inspect schema
  | size => return .size schema (← paths.lookup .value)
  | encode => return .encode schema (← paths.lookup .value) (← paths.lookup .output)
  | decode => return .decode schema (← paths.lookup .input)

end CommandName

structure Options where
  verbose : Bool
  paths : List (PathOption × String)
  /-- An option whose value must come next. -/
  pending : Option PathOption
  ended : Bool

namespace Options

def empty : Options := ⟨false, [], none, false⟩

def setVerbose? (o : Options) : Option Options :=
  if o.verbose then none else some { o with verbose := true }

def setPath? (o : Options) (option : PathOption) (path : String) : Option Options :=
  if path = "" ∨ Assoc.contains option o.paths then none
  else some { o with paths := (option, path) :: o.paths, pending := none }

def readLong? (allowed : List PathOption) (o : Options) (text : List Char) : Option Options :=
  let name := String.ofList (text.takeWhile (· ≠ '='))
  let rest := text.dropWhile (· ≠ '=')
  if name = "verbose" then if rest.isEmpty then o.setVerbose? else none
  else
    match allowed.find? fun option => option.long == name with
    | none => none
    | some option =>
      match rest with
      | [] => some { o with pending := some option }
      | _ :: path => o.setPath? option (String.ofList path)

/-- Reads what follows the dash of short options, of which the last may take the rest as its value. -/
def readShort? (allowed : List PathOption) (o : Options) : List Char → Option Options
  | [] => some o
  | 'v' :: rest => o.setVerbose?.bind fun o => readShort? allowed o rest
  | c :: rest =>
    match allowed.find? fun option => option.short == c with
    | none => none
    | some option =>
      match rest with
      | [] => some { o with pending := some option }
      | '=' :: path => o.setPath? option (String.ofList path)
      | path => o.setPath? option (String.ofList path)

def read? (allowed : List PathOption) (o : Options) (arg : String) : Option Options :=
  if o.ended then none
  else
    match o.pending, arg.toList with
    | some option, ['-'] => o.setPath? option arg
    | some _, '-' :: _ => none
    | some option, _ => o.setPath? option arg
    | none, ['-', '-'] => some { o with ended := true }
    | none, '-' :: '-' :: text => o.readLong? allowed text
    | none, '-' :: c :: rest => o.readShort? allowed (c :: rest)
    | none, _ => none

end Options

namespace CommandName

def read? (name : CommandName) (args : List String) : Option Command := do
  let o ← args.foldlM (Options.read? name.options) .empty
  if o.pending.isSome then none else name.command? o.paths

end CommandName

/-- What short switches in front of the command ask for: whether to go on verbosely, or the version. -/
inductive Switches where
  | verbose (set : Bool)
  | version

def readSwitches? (verbose : Bool) : List Char → Option Switches
  | [] => some (.verbose verbose)
  | 'v' :: rest => if verbose then none else readSwitches? true rest
  | 'V' :: _ => some .version
  | _ => none

def readRequest? (verbose : Bool) : List String → Option Request
  | [] => none
  | arg :: rest =>
    match CommandName.ofText? arg with
    | some name => (name.read? rest).map .command
    | none =>
      if arg = "--version" then some .version
      else if arg = "--verbose" then if verbose then none else readRequest? true rest
      else
        match arg.toList with
        | '-' :: c :: switches =>
          match readSwitches? verbose (c :: switches) with
          | some (.verbose set) => readRequest? set rest
          | some .version => some .version
          | none => none
        | _ => none

def request? (args : List String) : Option Request := readRequest? false args

end WireSchema.Cli
