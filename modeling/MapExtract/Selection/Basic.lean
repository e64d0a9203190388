import MapExtract.Store.Basic

set_option autoImplicit false
namespace MapExtract
open Element (Kind Key)

structure Selection where
  nodes : Table Int Node
  ways : Table Int Way
  relations : Table Int Relation
deriving DecidableEq

namespace Selection

def empty : Selection := ⟨.empty, .empty, .empty⟩

instance : Inhabited Selection := ⟨empty⟩

def add (s : Selection) : Element → Selection
  | .node n => { s with nodes := s.nodes.insertNew n.id n }
  | .way w => { s with ways := s.ways.insertNew w.id w }
  | .relation r => { s with relations := s.relations.insertNew r.id r }

def addAll (s : Selection) (es : List Element) : Selection := es.foldl add s

def contains (s : Selection) : Element.Key → Bool
  | (.node, id) => s.nodes.contains id
  | (.way, id) => s.ways.contains id
  | (.relation, id) => s.relations.contains id

def size (s : Selection) : Nat := s.nodes.size + s.ways.size + s.relations.size

def toList (s : Selection) : List Element :=
  s.nodes.values.map .node ++ s.ways.values.map .way ++ s.relations.values.map .relation

theorem length_toList (s : Selection) : s.toList.length = s.size := by
  simp [toList, size, Table.size, Table.values, Nat.add_assoc]

end Selection

inductive Note
  | missing (kind : Kind) (id : Int)
  | deleted (kind : Kind) (id : Int)
  | expanding (id : Int) (maxDepth : Option Int)
  | found (box : BoundingBox) (nodes : Nat)
deriving DecidableEq

def optionalText : Option Int → String
  | none => "None"
  | some n => toString n

def Note.text : Note → String
  | .missing kind id => s!"Skipping missing {kind.name} {id}"
  | .deleted kind id => s!"Skipping deleted {kind.name} {id}"
  | .expanding id maxDepth => s!"Expanding relation {id} (max_depth={optionalText maxDepth})"
  | .found box nodes => s!"bbox {box.text} selected {nodes} nodes"

structure Draft where
  selection : Selection
  notes : List Note
deriving DecidableEq

def Store.find (s : Store) (k : Key) : Except Note Element :=
  match s.current? k with
  | none => .error (.missing k.1 k.2)
  | some e => if e.visible then .ok e else .error (.deleted k.1 k.2)

namespace Draft

def empty : Draft := ⟨.empty, []⟩

def note (d : Draft) (n : Note) : Draft := { d with notes := d.notes ++ [n] }

def add (d : Draft) (e : Element) : Draft := { d with selection := d.selection.add e }

def addAll (d : Draft) (es : List Element) : Draft := { d with selection := d.selection.addAll es }

def addNode (s : Store) (d : Draft) (id : Int) : Draft :=
  if d.selection.nodes.contains id then d
  else
    match s.find (.node, id) with
    | .ok e => d.add e
    | .error n => d.note n

def addNodesOf (s : Store) (d : Draft) (w : Way) : Draft := w.nodes.foldl (addNode s) d

end Draft

def Store.wayWithNodes (s : Store) (id : Int) : Except Error Draft := do
  match ← s.getVisible (.way, id) with
  | .way w => return (Draft.empty.add (.way w)).addNodesOf s w
  | _ => throw (.notFound .way id)

end MapExtract
