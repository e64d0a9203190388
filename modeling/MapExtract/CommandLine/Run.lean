import MapExtract.CommandLine.Request
import MapExtract.Fixture.Address
import MapExtract.Fixture.Directory
import MapExtract.Store.Load

set_option autoImplicit false
namespace MapExtract.CommandLine
open Element (Kind)
open Fixture (Finder)

inductive Event
  | nothingAt (path : String)
  | loaded (counts : Counts) (users changesets : Nat)
  | changeset (c : Changeset)
  | note (n : Note)
  | failed (cause : Error)
deriving DecidableEq

namespace Event

def isDetail : Event → Bool
  | .changeset _ | .note _ => true
  | _ => false

def text : Event → String
  | .nothingAt path => s!"osmsel.arrow WARNING No elements at {path}"
  | .loaded counts users changesets =>
    s!"osmsel.loader INFO Loaded {counts.nodes} nodes, {counts.ways} ways, " ++
      s!"{counts.relations} relations from {users} users in {changesets} changesets"
  | .changeset c =>
    s!"osmsel.main DEBUG changeset {c.id}: {c.changes} changes between " ++
      s!"{optionalText c.earliest} and {optionalText c.latest}"
  | .note n => s!"osmsel.selection DEBUG {n.text}"
  | .failed cause => s!"osmsel.main ERROR {cause.message}"

end Event

structure Outcome where
  printed : List String
  events : List Event
  exit : Except Error Nat

namespace Outcome

def report (o : Outcome) (events : List Event) : Outcome :=
  { o with events := events ++ o.events }

def log (o : Outcome) (verbose : Bool) : List String :=
  (o.events.filter fun e => verbose || !e.isDetail).map Event.text

def failure (cause : Error) : Outcome :=
  if cause.isRequestError then ⟨[], [.failed cause], .ok 1⟩ else ⟨[], [], .error cause⟩

end Outcome

def loadKinds (root : String) (found : Finder) (store : Store) (summary : Summary) :
    List Kind → List Event × Except Error (Store × Summary)
  | [] => ([], .ok (store, summary))
  | k :: ks =>
    match found (Fixture.directoryPath root k) k with
    | .error cause => ([], .error cause)
    | .ok none =>
      let (events, loaded) := loadKinds root found store summary ks
      (.nothingAt (Fixture.directoryPath root k) :: events, loaded)
    | .ok (some files) =>
      match Fixture.readFiles k files with
      | .error cause => ([], .error cause)
      | .ok elements =>
        match store.loadAfter summary elements with
        | (_, .error cause) => ([], .error cause)
        | (kept, .ok counted) => loadKinds root found kept counted ks

def loadedEvents (s : Summary) : List Event :=
  .loaded s.counts s.users.size s.changesets.size :: s.changesets.values.map .changeset

/-- A map for the settings of a command. A blank box is noticed before the other two are looked at,
a blank area where areas are compared, and a blank number of nodes at the first node. -/
def selectMap (store : Store) (box : Given String) (maxArea : Given Binary64)
    (maxNodes : Given Int) : Except Error Draft := do
  let box ← BoundingBox.read (← box.get .blankBox)
  box.validate none
  let maxArea ← maxArea.get .blankValue
  match maxNodes with
  | .value maxNodes => store.mapOf box maxArea maxNodes
  | .blank =>
    match store.mapOf box maxArea 0 with
    | .error (.tooManyNodes _) => .error .blankValue
    | outcome => outcome

def Command.select (store : Store) : Command → Except Error Draft
  | .load => .ok .empty
  | .full relation maxDepth => do
    let id ← relation.get .blankValue
    let depth ← maxDepth.get .blankValue
    store.expand id (if depth = 0 then none else some depth)
  | .map box maxArea maxNodes => selectMap store box maxArea maxNodes

def print (store : Store) (command : Command) : Outcome :=
  match command.select store with
  | .error cause => .failure cause
  | .ok d => ⟨d.selection.toList.map Element.brief, d.notes.map .note, .ok 0⟩

def Request.runAt (r : Request) (root : String) (found : Finder) : Outcome :=
  match loadKinds root found .empty .empty Fixture.kinds with
  | (events, .error cause) => (Outcome.failure cause).report events
  | (events, .ok (store, summary)) =>
    (print store r.command).report (events ++ loadedEvents summary)

def Command.hasBlankDepth : Command → Bool
  | .full _ .blank => true
  | _ => false

/-- The path of the fixture of a request. A blank depth is noticed before the path is looked at. -/
def Request.path (r : Request) (homes : Fixture.Homes) : Except Error String := do
  if r.command.hasBlankDepth then throw .blankValue
  Fixture.pathOf homes (← r.inputPath.get .blankValue)

def Request.run (r : Request) (homes : Fixture.Homes) (found : Finder) : Outcome :=
  match r.path homes with
  | .error cause => .failure cause
  | .ok root => r.runAt root found

end MapExtract.CommandLine
