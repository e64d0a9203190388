import MapExtract.Element
import MapExtract.Row.Datum

set_option autoImplicit false
namespace MapExtract
open Element (Kind)

structure MemberCell where
  id : Option Datum
  role : Option Datum
  kind : Option Datum

/-- What a row holds in one column; a list that is `none` is null. -/
inductive Cell
  | datum (d : Datum)
  | pairs (value : Option (List (String × Option String)))
  | ids (value : Option (List Datum))
  | members (value : Option (List (Option MemberCell)))

abbrev Row := List (String × Cell)

namespace Row

def columns (r : Row) : List String := r.map Prod.fst

def whole (n : Int) : Cell := .datum (.whole n)

def optionalWhole (n : Option Int) : Cell := .datum (.ofOption .whole n)

def ofInfo (i : Info) : Row :=
  [("version", whole i.version), ("visible", .datum (.flag i.visible)),
   ("timestamp", optionalWhole i.timestamp), ("changeset", optionalWhole i.changeset),
   ("uid", optionalWhole i.uid), ("user", .datum (.ofOption .text i.user))]

def ofMember (m : Member) : MemberCell :=
  { id := some (.whole m.id), role := some (.text m.role), kind := some (.text m.kind.name) }

def ofTags (tags : Option Tags) : Cell := .pairs (tags.map Table.entries)

def ofElement : Element → Row
  | .node n =>
    ("id", whole n.id) :: ("tags", ofTags n.tags) :: ("latitude", .datum (.real n.latitude)) ::
      ("longitude", .datum (.real n.longitude)) :: ("tile", optionalWhole n.tile) :: ofInfo n.info
  | .way w =>
    ("id", whole w.id) :: ("tags", ofTags w.tags) :: ("nodes", .ids (w.nodes.map Datum.whole)) ::
      ofInfo w.info
  | .relation r =>
    ("id", whole r.id) :: ("tags", ofTags r.tags) ::
      ("members", .members (r.members.map fun m => some (ofMember m))) :: ofInfo r.info

def ownColumns : Kind → List String
  | .node => ["latitude", "longitude", "tile"]
  | .way => ["nodes"]
  | .relation => ["members"]

def columnsOf (k : Kind) : List String :=
  ["id", "tags"] ++ ownColumns k ++ ["version", "visible", "timestamp", "changeset", "uid", "user"]

end Row
end MapExtract
