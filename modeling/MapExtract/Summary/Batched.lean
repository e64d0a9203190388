import MapExtract.Batches
import MapExtract.Summary.Records
import MapExtract.Tile

set_option autoImplicit false
namespace MapExtract

structure Summary where
  users : Table UserKey User
  changesets : Table Int Changeset
  tagged : List Node
  counts : Counts
deriving DecidableEq

namespace Summary

def empty : Summary := ⟨.empty, .empty, [], .zero⟩

instance : Inhabited Summary := ⟨empty⟩

def merge (first second : Summary) : Summary where
  users := first.users.merge User.join second.users
  changesets := first.changesets.merge Changeset.join second.changesets
  tagged := first.tagged ++ second.tagged
  counts := first.counts.add second.counts

def count (s : Summary) (e : Element) : Summary where
  users := s.users.alter e.info.userKey (User.seen e.info)
  changesets := match e.info.changeset with
    | none => s.changesets
    | some id => s.changesets.alter id (Changeset.edited id e.info)
  tagged := s.tagged
  counts := s.counts.add (.one e.kind)

def tag (s : Summary) (e : Element) : Summary :=
  { s with tagged := s.tagged ++ e.node?.toList }

/-- Offers an element to a summary, and says which element goes on. An element without a place is
counted and not tagged. -/
def offer (s : Summary) (e : Element) : Summary × Except Error Element :=
  let counted := s.count e
  match e.located with
  | .ok placed => (counted.tag placed, .ok placed)
  | .error cause => (counted, .error cause)

def ofList (es : List Element) : Except Error Summary :=
  es.foldlM (fun s e => (s.offer e).2.map fun _ => (s.offer e).1) empty

def same (a b : Summary) : Bool :=
  a.users = b.users && a.changesets = b.changesets && a.counts = b.counts &&
    a.tagged.length = b.tagged.length && (a.tagged.zip b.tagged).all fun (m, n) => m.same n

abbrev Pool :=
  (List Element → Except Error Summary) → List (List Element) → Except Error (List Summary)

def inTurn : Pool := fun f batches => batches.mapM f

def ofBatches (pool : Pool) (processes size : Int) (es : List Element) : Except Error Summary := do
  let batches ← batchesOf size es
  let parts ← if processes ≤ 1 then inTurn ofList batches else pool ofList batches
  return parts.foldl merge empty

def defaultBatchSize : Int := 10000

def defaultProcesses : Int := 1

end Summary
end MapExtract
