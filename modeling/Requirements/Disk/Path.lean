import Requirements.Text.Split

/-! Paths as written, and what they name. A path keeps its text: the parts between
slashes, empty ones included. Two paths are the same when their steps are, which leave
out empty parts and all but a leading dot. -/
namespace Requirements

structure Path where
  parts : List String
  deriving DecidableEq, Inhabited

inductive Path.Step
  | root | here | up
  | into (name : String)
  deriving DecidableEq, Inhabited

namespace Path

def ofText (text : String) : Path := ⟨pieces '/' text⟩

def text (path : Path) : String := "/".intercalate path.parts

def isAbsolute (path : Path) : Bool :=
  match path.parts with
  | "" :: _ :: _ => true
  | _ => false

def join (base path : Path) : Path :=
  if path.isAbsolute then path
  else if base.parts.getLastD "" = "" then ⟨base.parts.dropLast ++ path.parts⟩
  else ⟨base.parts ++ path.parts⟩

def child (base : Path) (name : String) : Path := base.join ⟨[name]⟩

def descend (base : Path) (names : List String) : Path := names.foldl child base

def stepOf? : String → Option Step
  | "" | "." => none
  | ".." => some .up
  | name => some (.into name)

def steps (path : Path) : List Step :=
  let start := match path.parts with
    | "" :: _ :: _ => [.root]
    | "." :: _ => [.here]
    | _ => []
  start ++ path.parts.filterMap stepOf?

/-- Equality of what the paths name, not of their text. -/
def same (a b : Path) : Bool := a.steps == b.steps

def fileName? (path : Path) : Option String :=
  match path.steps.getLast? with
  | some (.into name) => some name
  | _ => none

def partsBeforeLast : List String → Option (List String)
  | [] => none
  | part :: rest =>
    match partsBeforeLast rest with
    | some before => some (part :: before)
    | none => if (stepOf? part).isSome then some [] else none

/-- Drops parts at the end that are no steps. The first part stays: it may be the root,
the leading dot or the path's only part. -/
def trimEnd : List String → List String
  | [] => []
  | part :: rest => part :: (rest.reverse.dropWhile fun part => (stepOf? part).isNone).reverse

def parent? (path : Path) : Option Path :=
  match path.steps.getLast? with
  | none | some .root => none
  | some .here => some ⟨[""]⟩
  | some _ =>
    match trimEnd ((partsBeforeLast path.parts).getD []) with
    | [] => some ⟨[""]⟩
    | [""] => some ⟨["", ""]⟩
    | before => some ⟨before⟩

/-- What follows the last dot of the file name, unless nothing stands before it. -/
def extension? (path : Path) : Option String := do
  match splitAtLast '.' (← path.fileName?).toList with
  | some (_ :: _, after) => some (String.ofList after)
  | _ => none

def Step.rank : Step → Nat
  | root => 0
  | here => 1
  | up => 2
  | into _ => 3

def Step.before : Step → Step → Bool
  | into a, into b => a < b
  | a, b => a.rank < b.rank

def stepsBefore : List Step → List Step → Bool
  | _, [] => false
  | [], _ :: _ => true
  | a :: as, b :: bs => a.before b || (a == b && stepsBefore as bs)

/-- The order of paths: step by step, a folder before what it holds. -/
def before (a b : Path) : Bool := stepsBefore a.steps b.steps

end Path
end Requirements
