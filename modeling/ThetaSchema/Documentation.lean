import ThetaSchema.Text.Basic

/-!
# Documentation texts

A documentation comment is read to the text it carries, without the marks and the indentation that
belong to the layout of the comment.  There are two forms: a run of lines that each start with three
slashes, and a block that is closed by a star and a slash.

Main definitions:

- `Documentation.ofLines`: the text of a run of lines.
- `Documentation.ofBlock`: the text of a block, whose continuation lines may start with a star and may
  share an indentation.
-/

namespace ThetaSchema
namespace Documentation

/-- Lines put together, without the white space around the whole. -/
def assemble (ls : List Text) : Text :=
  Text.trim Byte.isSpace (Text.unlines ls)

/-- The text of a run of documentation lines, given what follows the slashes of each. -/
def ofLines (ls : List Text) : Text :=
  assemble (ls.map (Text.trim Byte.isHorizontal))

/-- A line of a block after the first one: either it starts with a star, and then its text is settled, or
its text keeps the indentation that is still to be compared with that of other lines. -/
inductive Continuation where
  | starred (text : Text)
  | plain (text : Text)
  deriving DecidableEq, Repr

namespace Continuation

/-- Reads a line of a block after the first one: a star loses the blanks before it and one space after
it, and white space at the end goes in either case. -/
def ofLine (line : Text) : Continuation :=
  let stripped := line.dropWhile Byte.isHorizontal
  if stripped.head? = some Byte.star then
    let marked := stripped.tail
    starred (Text.trimEnd Byte.isHorizontal (if marked.head? = some Byte.space then marked.tail else marked))
  else plain (Text.trimEnd Byte.isHorizontal line)

/-- The indentation of a line that is neither starred nor blank. -/
def indentation? : Continuation → Option Nat
  | starred _ => none
  | plain [] => none
  | plain (b :: rest) => some ((b :: rest).takeWhile Byte.isHorizontal).length

/-- The text of a line once the common indentation is known. -/
def settle (common : Nat) : Continuation → Text
  | starred text => text
  | plain text => text.drop common

end Continuation

/-- The least indentation of the lines that have one. -/
def commonIndentation (cs : List Continuation) : Nat :=
  (cs.filterMap Continuation.indentation?).min?.getD 0

/-- The text of a documentation block, given what stands between its opening and its closing mark. -/
def ofBlock (body : Text) : Text :=
  match Text.lines body with
  | [] => []
  | first :: others =>
    let continuations := others.map Continuation.ofLine
    assemble (Text.trim Byte.isHorizontal first ::
      continuations.map (Continuation.settle (commonIndentation continuations)))

end Documentation
end ThetaSchema
