import ThetaSchema.Command.Options
import ThetaSchema.Graph.Validation
import ThetaSchema.Loading.Closure
import ThetaSchema.Schema.Printer

/-!
# Running the command

A run first plans what to load, then loads it, and then answers.  Results go to the standard output;
notes, usage hints and failures go to the standard error, and every failure is printed once.

Main definitions:

- `Command.plan`: the answer to arguments that need no file, or what has to be loaded.
- `Command.Plan.finish`: the answer once the modules are loaded.
- `Command.run`: a whole run on a file tree.
-/

namespace ThetaSchema
namespace Command

/-- What a run leaves behind. -/
structure Answer where
  exitCode : Nat
  out : Text
  err : Text
  deriving DecidableEq, Repr

/-- What has to be loaded, and what is asked about it. -/
structure Plan where
  subcommand : Subcommand
  typeName : Text
  verbose : Bool
  loadPath : List Text
  roots : List Text
  deriving DecidableEq, Repr

/-- The first part of a run: an answer that needs no file, or a plan. -/
inductive Decision where
  | answer (a : Answer)
  | load (p : Plan)
  deriving DecidableEq, Repr

/-- The diagnostics that accompany an answer: never the errors, which are printed as such, and notes only
on request. -/
def notices (verbose : Bool) (log : Log) : Text :=
  (log.filter fun d => d.severity = .warning || (d.severity = .note && verbose)).flatMap fun d =>
    d.render ++ "\n"

namespace Answer

/-- The answer to a mistake in the arguments. -/
def mistake (m : Mistake) : Answer :=
  ⟨1, [], m.message⟩

/-- The answer to a call for help. -/
def help : Answer :=
  ⟨0, [], manual⟩

/-- The answer after a failure. -/
def failure (verbose : Bool) (log : Log) (e : SchemaError) : Answer :=
  ⟨1, [], notices verbose log ++ e.message ++ "\n"⟩

/-- The answer after a success. -/
def success (verbose : Bool) (log : Log) (out : Text) : Answer :=
  ⟨0, out, notices verbose log⟩

end Answer

/-! ## Planning -/

/-- The modules to load: those asked for, and otherwise the module of the type to show. -/
def rootsOf (c : Subcommand) (o : Options) : Except Answer (List Text) :=
  if c = .display && o.typeName.isEmpty then .error (.mistake .missingType)
  else if !o.modules.isEmpty then .ok o.modules
  else if c = .display then
    match QualifiedName.parse o.typeName with
    | .ok name => .ok [name.moduleName]
    | .error e => .error (.failure o.verbose [] e)
  else .error (.mistake .missingModules)

/-- Plans a subcommand with its options. -/
def planWith (c : Subcommand) (o : Options) : Decision :=
  if o.help then .answer .help
  else
    match rootsOf c o with
    | .error a => .answer a
    | .ok roots =>
      .load ⟨c, o.typeName, o.verbose, if o.loadPath.isEmpty then ["."] else o.loadPath, roots⟩

/-- Plans a run for given arguments. -/
def plan : List Text → Decision
  | [] => .answer (.mistake .noSubcommand)
  | word :: args =>
    if isHelpOption word || word == ("help" : Text) then .answer .help
    else
      match Subcommand.ofText? word with
      | none => .answer (.mistake (.unknownSubcommand word))
      | some c =>
        match readOptions {} args with
        | .error m => .answer (.mistake m)
        | .ok o => planWith c o

/-! ## Answering -/

/-- What a subcommand prints about modules that were loaded. -/
def Plan.result (p : Plan) (g : ModuleGraph) : Logged Text :=
  match p.subcommand with
  | .print => .succeed (renderModules g.modules)
  | .check => g.validate.andThen fun valid =>
    .succeed ("validated " ++ Decimal.render valid.size ++ " module(s)\n")
  | .display => g.validate.andThen fun valid =>
    ⟨[], (valid.lookup p.typeName).map Definition.render⟩

/-- The answer once the modules are loaded. -/
def Plan.finish (p : Plan) (loaded : Logged ModuleGraph) : Answer :=
  let result := loaded.andThen p.result
  match result.outcome with
  | .ok out => .success p.verbose result.log out
  | .error e => .failure p.verbose result.log e

/-- A whole run on a file tree. -/
def run (tree : FileTree) (args : List Text) : Answer :=
  match plan args with
  | .answer a => a
  | .load p => p.finish (loadGraph tree p.loadPath p.roots)

end Command
end ThetaSchema
