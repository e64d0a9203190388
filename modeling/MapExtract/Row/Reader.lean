import MapExtract.Row.Basic
import MapExtract.Row.Entry

set_option autoImplicit false
namespace MapExtract
open Element (Kind)

namespace Cell

def datum? : Cell → Option Datum
  | .datum d => some d
  | _ => none

def pairs? : Cell → Option (Option (List (String × Option String)))
  | .pairs value => some value
  | _ => none

def ids? : Cell → Option (List Datum)
  | .ids value => some (value.getD [])
  | _ => none

def members? : Cell → Option (List (Option MemberCell))
  | .members value => some (value.getD [])
  | _ => none

end Cell

def present {α : Type} (name : String) : Option α → Except Error α
  | some a => .ok a
  | none => .error (.missing name)

def Element.Kind.read (name : Datum) : Except Error Kind :=
  match name.text?.bind Kind.ofName? with
  | some k => .ok k
  | none => .error (.unknownKind name.shown)

/-- Identifier and role are read before the kind. -/
def MemberCell.read : Option MemberCell → Except Error MemberEntry
  | none => .error .nullMember
  | some m => do
    let id ← present "id" m.id
    let role ← present "role" m.role
    let name ← present "type" m.kind
    return { kind := ← Kind.read name, id, role }

namespace Row

def get {α : Type} (r : Row) (column : String) (as? : Cell → Option α) : Except Error α :=
  present column ((r.lookup column).bind as?)

/-- The tags of a row; of pairs with one key the last one counts. -/
def readTags (r : Row) : Except Error (Option Tags) := do
  return (← r.get "tags" Cell.pairs?).map Table.ofList

def readBody (r : Row) : Kind → Except Error Body
  | .node => do
    let latitude ← r.get "latitude" Cell.datum?
    let longitude ← r.get "longitude" Cell.datum?
    return .node latitude longitude (← r.get "tile" Cell.datum?)
  | .way => do return .way (← r.get "nodes" Cell.ids?)
  | .relation => do
    let cells ← r.get "members" Cell.members?
    return .relation (← cells.mapM MemberCell.read)

def readEntry (k : Kind) (r : Row) : Except Error Entry := do
  let id ← r.get "id" Cell.datum?
  let version ← r.get "version" Cell.datum?
  let timestamp ← r.get "timestamp" Cell.datum?
  let changeset ← r.get "changeset" Cell.datum?
  let uid ← r.get "uid" Cell.datum?
  let user ← r.get "user" Cell.datum?
  let visible ← r.get "visible" Cell.datum?
  let tags ← r.readTags
  let body ← r.readBody k
  return { id, version, timestamp, changeset, uid, user, visible, tags, body }

def readElement (k : Kind) (r : Row) : Except Error Element := do
  (← r.readEntry k).toElement

end Row
end MapExtract
