import MapExtract.Binary64.Text
import MapExtract.Table

set_option autoImplicit false
namespace MapExtract.Element

inductive Kind
  | node
  | way
  | relation
deriving DecidableEq, Repr

namespace Kind

def name : Kind → String
  | .node => "node"
  | .way => "way"
  | .relation => "relation"

def ofName? (text : String) : Option Kind :=
  if text = "node" then some .node
  else if text = "way" then some .way
  else if text = "relation" then some .relation
  else none

theorem ofName_name (k : Kind) : ofName? k.name = some k := by cases k <;> decide

end Kind
end MapExtract.Element

namespace MapExtract

/-- Keys with their values, in the order of the keys; a value may be missing. -/
abbrev Tags := Table String (Option String)

structure Info where
  version : Int
  timestamp : Option Int
  changeset : Option Int
  uid : Option Int
  user : Option String
  visible : Bool
deriving DecidableEq

def Info.bare (version : Int) (visible : Bool) : Info := ⟨version, none, none, none, none, visible⟩

structure Node where
  id : Int
  info : Info
  tags : Option Tags
  latitude : Binary64
  longitude : Binary64
  tile : Option Int
deriving DecidableEq

def Node.bare (id version : Int) (latitude : Binary64) (tile : Option Int) : Node :=
  ⟨id, .bare version true, none, latitude, .zero false, tile⟩

structure Way where
  id : Int
  info : Info
  tags : Option Tags
  nodes : List Int
deriving DecidableEq

structure Member where
  kind : Element.Kind
  id : Int
  role : String
deriving DecidableEq

structure Relation where
  id : Int
  info : Info
  tags : Option Tags
  members : List Member
deriving DecidableEq

inductive Element
  | node (n : Node)
  | way (w : Way)
  | relation (r : Relation)
deriving DecidableEq

def Node.same (a b : Node) : Bool :=
  a.id = b.id && a.info = b.info && a.tags = b.tags && a.latitude.same b.latitude &&
    a.longitude.same b.longitude && a.tile = b.tile

namespace Element

def kind : Element → Kind
  | .node _ => .node
  | .way _ => .way
  | .relation _ => .relation

def id : Element → Int
  | .node n => n.id
  | .way w => w.id
  | .relation r => r.id

def info : Element → Info
  | .node n => n.info
  | .way w => w.info
  | .relation r => r.info

def tags : Element → Option Tags
  | .node n => n.tags
  | .way w => w.tags
  | .relation r => r.tags

def version (e : Element) : Int := e.info.version

def visible (e : Element) : Bool := e.info.visible

def node? : Element → Option Node
  | .node n => some n
  | _ => none

def way? : Element → Option Way
  | .way w => some w
  | _ => none

def relation? : Element → Option Relation
  | .relation r => some r
  | _ => none

abbrev Key := Kind × Int

def key (e : Element) : Key := (e.kind, e.id)

def brief (e : Element) : String := s!"{e.kind.name}/{e.id} v{e.version}"

end Element

def Relation.hasMember (r : Relation) (key : Element.Key) : Bool :=
  r.members.any fun m => (m.kind, m.id) == key

end MapExtract
