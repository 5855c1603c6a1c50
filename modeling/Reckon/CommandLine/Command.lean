import Reckon.Parser

namespace Reckon.CommandLine

/-! What the arguments of a run ask for.

Arguments are taken from left to right, and the first that settles the run
settles it: an argument that cannot be used, or the wish to see the help or the
version.
-/

/-- What may be switched on, each at most once. -/
inductive Switch where
  /-- The contents name a file that holds the expression. -/
  | file
  /-- Whatever follows the first complete expression is ignored. -/
  | lenient
  /-- The tokens are printed. -/
  | tokens
  /-- The tree is printed. -/
  | tree
deriving DecidableEq, Repr

/-- The switches that are on. -/
structure Switches where
  file : Bool := false
  lenient : Bool := false
  tokens : Bool := false
  tree : Bool := false
deriving DecidableEq, Repr

namespace Switches

def get (switches : Switches) : Switch → Bool
  | .file => switches.file
  | .lenient => switches.lenient
  | .tokens => switches.tokens
  | .tree => switches.tree

def turnOn (switches : Switches) : Switch → Switches
  | .file => { switches with file := true }
  | .lenient => { switches with lenient := true }
  | .tokens => { switches with tokens := true }
  | .tree => { switches with tree := true }

def mode (switches : Switches) : Mode := if switches.lenient then .lenient else .strict

end Switches

/-- What an argument, or one letter of it, asks for. -/
inductive Item where
  | switch (switch : Switch)
  | help
  | version
  | contents (text : String)
  | unknown
deriving DecidableEq, Repr

namespace Item

def ofLetter : Char → Item
  | 'f' => .switch .file
  | 'l' => .switch .lenient
  | 't' => .switch .tokens
  | 'a' => .switch .tree
  | 'h' => .help
  | 'V' => .version
  | _ => .unknown

def ofName : String → Item
  | "file" => .switch .file
  | "lenient" => .switch .lenient
  | "tokens" => .switch .tokens
  | "ast" => .switch .tree
  | "help" => .help
  | "version" => .version
  | _ => .unknown

/-- The items of one argument.  Letters may share a dash; a dash alone and the
empty argument are contents. -/
def ofArgument (argument : String) : List Item :=
  match argument.toList with
  | ['-'] => [.contents argument]
  | '-' :: '-' :: name => [ofName (String.ofList name)]
  | '-' :: letters => letters.map ofLetter
  | _ => [.contents argument]

/-- The items of all arguments.  After two dashes alone there are only contents. -/
def ofArguments : List String → List Item
  | [] => []
  | argument :: others =>
      if argument = "--" then others.map .contents
      else ofArgument argument ++ ofArguments others

end Item

/-- What a run is asked to do. -/
inductive Command where
  | showHelp
  | showVersion
  | evaluate (switches : Switches) (contents : String)
deriving DecidableEq, Repr

namespace Command

/-- Takes items one by one.  A second switch of a kind, second contents and an
unknown item are refused where they stand, missing contents at the end. -/
def ofItems? (switches : Switches) (contents : Option String) : List Item → Option Command
  | [] => contents.map (.evaluate switches ·)
  | .switch switch :: others =>
      if switches.get switch then none
      else ofItems? (switches.turnOn switch) contents others
  | .help :: _ => some .showHelp
  | .version :: _ => some .showVersion
  | .contents text :: others =>
      if contents.isSome then none else ofItems? switches (some text) others
  | .unknown :: _ => none

def ofArguments? (arguments : List String) : Option Command :=
  ofItems? {} none (Item.ofArguments arguments)

end Command

end Reckon.CommandLine
