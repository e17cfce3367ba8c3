/-
  The making of an archive, step by step.

  * `Step` is what can be asked of a builder, and `Step.run` does it;
  * `Session.run` opens an archive, does one step after the other whether they
    fail or not, and gives the builder up at the end unless it was finished.
-/
import Tarball.Builder.Import

namespace Tarball

/-- What can be asked of a builder. -/
inductive Step where
  | add (request : Request)
  | importFile (name : String) (source : Bytes) (mode : Option UInt32)
  | importTree (dest : String) (source : Bytes) (mode : Option UInt32)
  | close
  | finish
  deriving DecidableEq, Repr

/-- What a step does. -/
def Step.run (fs : FileSystem) : Step → Building Unit
  | add r => Builder.add r
  | importFile name source mode => Builder.importFile fs name source mode
  | importTree dest source mode => Builder.importTree fs dest source mode
  | close => Builder.close
  | finish => Builder.finish

/-- What has come of a step. -/
structure Outcome where
  failure : Option Cause
  builder : Builder
  deriving DecidableEq, Repr

/-- What has come of a step that was run. -/
def Outcome.ofResult : EStateM.Result Cause Builder Unit → Outcome
  | .ok _ b => ⟨none, b⟩
  | .error cause b => ⟨some cause, b⟩

/-- The outcomes of steps, one after the other; finishing is the last one. -/
def Step.runAll (fs : FileSystem) (b : Builder) : List Step → List (Step × Outcome)
  | [] => []
  | step :: rest =>
    let outcome := Outcome.ofResult (step.run fs b)
    (step, outcome) :: if step = .finish then [] else runAll fs outcome.builder rest

/-- The making of an archive. -/
structure Session where
  opening : Outcome
  /-- The steps that were done, with what came of them. -/
  steps : List (Step × Outcome)
  deriving DecidableEq, Repr

namespace Session

/-- An archive opened and, if it could be opened, worked on step by step. -/
def run (fs : FileSystem) (o : Options) (sink : Sink) (steps : List Step) : Session :=
  let opening := Outcome.ofResult (Builder.start o sink)
  match opening.failure with
  | some _ => { opening, steps := [] }
  | none => { opening, steps := Step.runAll fs opening.builder steps }

/-- The builder after the last step. -/
def last (s : Session) : Builder :=
  match s.steps.getLast? with
  | some (_, outcome) => outcome.builder
  | none => s.opening.builder

/-- Whether the archive was handed over, or tried to be. -/
def finished (s : Session) : Bool :=
  s.steps.any (·.1 = .finish)

/-- The builder at the end of all: given up, unless it was finished. -/
def final (s : Session) : Builder :=
  if s.finished then s.last else s.last.drop

end Session

end Tarball
