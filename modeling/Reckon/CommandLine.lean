import Reckon.CommandLine.Command

namespace Reckon.CommandLine

/-! What a run prints and how it ends.

A run prints its sections in order and ends at the first fault; what was
printed before that stays printed.
-/

/-- What a run leaves behind: its exit status and the texts of the two streams. -/
structure Outcome where
  status : UInt32
  output : String
  diagnostics : String
deriving DecidableEq, Repr

def line (text : String) : String := text ++ "\n"

namespace Outcome

/-- Prints sections up to the first fault. -/
def ofSections : List (Except Fault String) → Outcome
  | [] => ⟨0, "", ""⟩
  | .ok text :: others =>
      let outcome := ofSections others
      { outcome with output := text ++ outcome.output }
  | .error fault :: _ => ⟨1, "", line fault.message⟩

def version : Outcome := ⟨0, line "calx 0.1.0", ""⟩

def help : Outcome :=
  ⟨0, String.join <| [
    "A small arithmetic expression evaluator: scanner, recursive-descent parser and tree-walking",
    "evaluator.",
    "",
    "Usage: calx [OPTIONS] <CONTENTS>",
    "",
    "Arguments:",
    "  <CONTENTS>  ",
    "",
    "Options:",
    "  -f, --file     Tells calx to read the expression from a file instead of the command line",
    "  -l, --lenient  Ignore anything left over after the first complete expression",
    "  -t, --tokens   Print the token stream before evaluating",
    "  -a, --ast      Print the parsed expression, fully parenthesized, before evaluating",
    "  -h, --help     Print help",
    "  -V, --version  Print version"].map line, ""⟩

def unusable : Outcome :=
  ⟨2, "", line "usage: [--file] [--lenient] [--tokens] [--ast] [--] contents"⟩

def unreadable (path : String) : Outcome :=
  ⟨1, "", line ("Failed to read the input file '" ++ path ++
    "'. Perhaps this file does not exist?")⟩

end Outcome

/-- One line for each lexeme of a text. -/
def tokenSection (source : String) : Except Fault String := do
  return String.join ((← tokenize source).map fun lexeme => line lexeme.text)

def treeSection (mode : Mode) (source : String) : Except Fault String := do
  return line (← Reckon.parse mode source).render

def valueSection (mode : Mode) (source : String) : Except Fault String := do
  return line (Number.text (← Reckon.evaluate mode source))

/-- What is to be printed of a text: tokens and tree if asked for, then the value. -/
def sections (switches : Switches) (source : String) : List (Except Fault String) :=
  (if switches.tokens then [tokenSection source] else []) ++
  (if switches.tree then [treeSection switches.mode source] else []) ++
  [valueSection switches.mode source]

def evaluate (switches : Switches) (source : String) : Outcome :=
  Outcome.ofSections (sections switches source)

def isLineEnd (character : Char) : Bool := character == '\n' || character == '\r'

/-- Drops the line ends that a file closes with. -/
def withoutLineEnds (text : String) : String :=
  String.ofList (text.toList.reverse.dropWhile isLineEnd).reverse

/-- Evaluates the text of a file, given its bytes if there are any to be had. -/
def evaluateFile (switches : Switches) (path : String) (bytes : Option ByteArray) : Outcome :=
  match bytes.bind String.fromUTF8? with
  | some text => evaluate switches (withoutLineEnds text)
  | none => .unreadable path

/-- Runs the program on its arguments.  Nothing but `readFile` is asked of the
world, and that only where the arguments name a file. -/
def run [Monad m] (readFile : String → m (Option ByteArray)) (arguments : List String) :
    m Outcome :=
  match Command.ofArguments? arguments with
  | none => return .unusable
  | some .showHelp => return .help
  | some .showVersion => return .version
  | some (.evaluate switches contents) =>
      if switches.file then
        return evaluateFile switches contents (← readFile contents)
      else
        return evaluate switches contents

end Reckon.CommandLine
