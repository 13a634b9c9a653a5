import ThetaSchema.Command.Run

/-!
# The command `thetac`

The outer layer of the command: it reads files from disk as the loading asks for them and prints the
answer.
-/

namespace ThetaSchema

/-- The string of a text, if its bytes are valid UTF-8. -/
def Text.toString? (t : Text) : Option String :=
  String.fromUTF8? (ByteArray.mk t.toArray)

/-- What a path leads to on disk. -/
def diskEntry (path : Text) : IO (Option Entry) := do
  match path.toString? with
  | none => return none
  | some name =>
    try
      return some (.file (← IO.FS.readBinFile name).toList)
    catch e =>
      match e with
      | .inappropriateType _ 21 _ => return some .directory
      | .permissionDenied _ _ details => return some (.unreadable (Text.ofString details))
      | _ => return none

/-- The first of several paths that leads somewhere on disk, and where it leads. -/
def firstOnDisk : List Text → IO (List (Text × Entry))
  | [] => return []
  | path :: others => do
    match ← diskEntry path with
    | some entry => return [(path, entry)]
    | none => firstOnDisk others

/-- Finds a module on the load path on disk and reads it. -/
def loadFromDisk (loadPath : List Text) (name : Text) : IO (Logged SchemaModule) := do
  match modulePath name with
  | .error e => return .fail e
  | .ok relative =>
    let found ← firstOnDisk (candidatePaths loadPath relative)
    return loadModule (fun path => found.lookup path) loadPath name

/-- Loads pending modules from disk until none is left or one fails. -/
partial def closeFromDisk (loadPath : List Text) (log : Log) (l : Loading) : IO (Logged ModuleGraph) := do
  match l.pending with
  | [] => return ⟨log, .ok ⟨l.loaded⟩⟩
  | name :: others =>
    let loaded ← loadFromDisk loadPath name
    match loaded.outcome with
    | .error e => return ⟨log ++ loaded.log, .error e⟩
    | .ok m => closeFromDisk loadPath (log ++ loaded.log) (l.absorb others m)

/-- The answer to arguments, with files from disk. -/
def answerFromDisk (args : List Text) : IO Command.Answer := do
  match Command.plan args with
  | .answer a => return a
  | .load p => return p.finish (← closeFromDisk p.loadPath [] (Loading.start p.roots))

end ThetaSchema

open ThetaSchema in
/-- Answers the arguments of the command line. -/
def main (args : List String) : IO UInt32 := do
  let answer ← answerFromDisk (args.map Text.ofString)
  (← IO.getStdout).write (ByteArray.mk answer.out.toArray)
  (← IO.getStderr).write (ByteArray.mk answer.err.toArray)
  return answer.exitCode.toUInt32
