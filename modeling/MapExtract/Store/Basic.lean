import MapExtract.Tile
import MapExtract.Store.TileIndex

/-!
A store keeps every version of every element, in ascending order, and finds the current nodes by
tile. A version that does not follow the last one is refused and changes nothing. A node without a
place is kept, and is found under no new tile.
-/

set_option autoImplicit false
namespace MapExtract
open Element (Kind Key)

/-- The versions of one element, the oldest first. -/
abbrev History := List Element

inductive Visibility
  | exists
  | deleted
  | nonExistent
deriving DecidableEq, Repr

def Visibility.name : Visibility → String
  | .exists => "exists"
  | .deleted => "deleted"
  | .nonExistent => "non_exist"

/-- Histories in the order in which their elements first arrived. -/
structure Store where
  histories : List (Key × History)
  index : TileIndex
deriving DecidableEq

namespace Store

def empty : Store := ⟨[], .empty⟩

instance : Inhabited Store := ⟨empty⟩

def historyIn (k : Key) : List (Key × History) → History
  | [] => []
  | (a, h) :: rest => if a = k then h else historyIn k rest

def history (s : Store) (k : Key) : History := historyIn k s.histories

def current? (s : Store) (k : Key) : Option Element := (s.history k).getLast?

def get (s : Store) (k : Key) : Except Error Element :=
  match s.current? k with
  | some e => .ok e
  | none => .error (.notFound k.1 k.2)

def getHistory (s : Store) (k : Key) : Except Error History :=
  match s.history k with
  | [] => .error (.notFound k.1 k.2)
  | h => .ok h

def getVersion (s : Store) (k : Key) (version : Int) : Except Error Element :=
  match (s.history k).find? (·.version = version) with
  | some e => .ok e
  | none => .error (.notFound k.1 k.2)

def visibility (s : Store) (k : Key) : Visibility :=
  match s.current? k with
  | none => .nonExistent
  | some e => if e.visible then .exists else .deleted

/-- The current elements of a kind, in the order in which they first arrived. -/
def current (s : Store) (kind : Kind) : List Element :=
  (s.histories.filter (·.1.1 = kind)).filterMap (·.2.getLast?)

def range (s : Store) (low high : Int) : List Node :=
  (s.index.range low high).filterMap fun id => (s.current? (.node, id)).bind Element.node?

def size (s : Store) : Nat := s.histories.length

/-- The current version of an element that is visible; the error says whether it ever was. -/
def getVisible (s : Store) (k : Key) : Except Error Element :=
  match s.current? k with
  | none => .error (.notFound k.1 k.2)
  | some e => if e.visible then .ok e else .error (.gone k.1 k.2)

end Store
end MapExtract
