import MapExtract.BoundingBox.Validation
import MapExtract.Selection.Basic

set_option autoImplicit false
namespace MapExtract.Store
open Element (Key)

def visibleWays (s : Store) : List Way :=
  ((s.current .way).filterMap Element.way?).filter (·.info.visible)

def visibleRelations (s : Store) : List Relation :=
  ((s.current .relation).filterMap Element.relation?).filter (·.info.visible)

def relationsWith (s : Store) (members : List Key) : List Relation :=
  s.visibleRelations.filter fun r => members.any r.hasMember

def waysOver (s : Store) (node : Int) : List Way :=
  (s.visibleWays.filter (·.nodes.contains node)).mergeSort (·.id ≤ ·.id)

def relationsOver (s : Store) (member : Key) : List Relation :=
  (s.relationsWith [member]).mergeSort (·.id ≤ ·.id)

def defaultMaxArea : Binary64 := .ofDecimal false 25 (-2)

def defaultMaxNodes : Int := 50000

def nodesIn (s : Store) (box : BoundingBox) : Except Error (List Node) := do
  let (low, high) ← Tile.range box
  return (s.range low high).filter fun n => n.info.visible && box.contains n.latitude n.longitude

def complete (s : Store) (d : Draft) : Draft :=
  let inBox := d.selection.nodes
  let ways := s.visibleWays.filter fun w => w.nodes.any fun id => inBox.contains id
  let d := ways.foldl (Draft.addNodesOf s) (d.addAll (ways.map .way))
  let members := d.selection.nodes.keys.map (Element.Kind.node, ·) ++
    d.selection.ways.keys.map (Element.Kind.way, ·)
  let d := d.addAll ((s.relationsWith members).map .relation)
  let parents := d.selection.relations.keys.map (Element.Kind.relation, ·)
  d.addAll ((s.relationsWith parents).map .relation)

/-- The map of a box, unless the box is refused or holds more nodes than are allowed. -/
def mapOf (s : Store) (box : BoundingBox) (maxArea : Binary64) (maxNodes : Int) :
    Except Error Draft := do
  box.validate (some maxArea)
  let nodes ← s.nodesIn box
  let d := Draft.empty.addAll (nodes.map .node)
  let count := d.selection.nodes.size
  if 0 < count ∧ maxNodes < count then throw (.tooManyNodes maxNodes)
  let d := d.note (.found box count)
  return if count = 0 then d else s.complete d

end MapExtract.Store
