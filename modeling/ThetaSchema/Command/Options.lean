import ThetaSchema.Error

/-!
# The command line

The command `thetac` has three subcommands, which print modules, check them, or show one definition.
Arguments are read from left to right, and the first mistake ends the reading.

Main definitions:

- `Command.Subcommand`, `Command.Options`: what arguments say.
- `Command.Mistake`: what can be wrong with them, with the wording in `Command.Mistake.message`.
- `Command.readOptions`: options from arguments.
-/

namespace ThetaSchema
namespace Command

/-- What is asked for. -/
inductive Subcommand where
  | print
  | check
  | display
  deriving DecidableEq, Repr

/-- The subcommand that a word names. -/
def Subcommand.ofText? (t : Text) : Option Subcommand :=
  if t = "ast" then some print
  else if t = "check" then some check
  else if t = "show" then some display
  else none

/-- What the options say.  The empty type name stands for none, and without a directory the load path is
the current directory. -/
structure Options where
  loadPath : List Text := []
  modules : List Text := []
  typeName : Text := []
  verbose : Bool := false
  help : Bool := false
  deriving DecidableEq, Repr

/-- What can be wrong with the arguments. -/
inductive Mistake where
  | noSubcommand
  | unknownSubcommand (word : Text)
  | missingValue (option : Text)
  | unknownOption (word : Text)
  | missingType
  | missingModules
  deriving DecidableEq, Repr

/-- The short hint on how the command is used. -/
def usage : Text :=
  "Usage: thetac <ast|check|show> --load-path <dir> --module <name> [options]\n" ++
    "Try: thetac --help\n"

/-- What is printed about a mistake. -/
def Mistake.message : Mistake → Text
  | noSubcommand => usage
  | unknownSubcommand word => "Unknown command: " ++ word ++ "\n" ++ usage
  | missingValue option => "Missing value for " ++ option ++ "\n" ++ usage
  | unknownOption word => "Unknown option: " ++ word ++ "\n" ++ usage
  | missingType => "--type is required for 'show' command\n"
  | missingModules => "At least one --module is required\n"

/-- The full description of the command. -/
def manual : Text :=
  Text.unlines
    ["NAME",
      "  thetac - Theta schema front end",
      "",
      "SYNOPSIS",
      "  thetac <command> --load-path <dir> [--load-path <dir> ...] --module <name> [options]",
      "  thetac --help",
      "",
      "DESCRIPTION",
      "  thetac loads Theta modules and the modules they import from the load path.",
      "  Module 'a.b.c' is read from '<dir>/a/b/c.theta' for the first load-path",
      "  directory that has it.",
      "",
      "COMMANDS",
      "  ast    Print the parsed modules as Theta source.",
      "  check  Validate the module graph and report every violation.",
      "  show   Print one definition selected with --type.",
      "",
      "OPTIONS",
      "  --load-path <dir>",
      "      Directory searched for modules. Repeat to add more directories.",
      "      Defaults to the current directory.",
      "  --module <name>",
      "      Module to load. Repeat to load several roots.",
      "  --type <name>",
      "      Fully-qualified definition name for 'show', e.g. com.example.Foo.",
      "      Its module is loaded when no --module is given.",
      "  --verbose",
      "      Print loader notes.",
      "  --help, -h",
      "      Print this help text.",
      ""]

/-- Whether an argument asks for help. -/
def isHelpOption (arg : Text) : Bool :=
  arg == ("--help" : Text) || arg == ("-h" : Text)

/-- The options that take the next argument as their value, with their effect. -/
def valued? (arg : Text) : Option (Text → Options → Options) :=
  if arg = "--load-path" then some fun v o => { o with loadPath := o.loadPath ++ [v] }
  else if arg = "--module" then some fun v o => { o with modules := o.modules ++ [v] }
  else if arg = "--type" then some fun v o => { o with typeName := v }
  else none

/-- The options that stand alone, with their effect. -/
def plain? (arg : Text) : Option (Options → Options) :=
  if arg = "--verbose" then some fun o => { o with verbose := true }
  else if isHelpOption arg then some fun o => { o with help := true }
  else none

/-- Reads options from arguments, on top of options that were read before. -/
def readOptions (o : Options) : List Text → Except Mistake Options
  | [] => .ok o
  | arg :: rest =>
    match valued? arg with
    | some set =>
      match rest with
      | [] => .error (.missingValue arg)
      | v :: others => readOptions (set v o) others
    | none =>
      match plain? arg with
      | some set => readOptions (set o) rest
      | none => .error (.unknownOption arg)

end Command
end ThetaSchema
