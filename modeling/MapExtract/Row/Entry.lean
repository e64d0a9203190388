import MapExtract.Error
import MapExtract.Element
import MapExtract.Row.Datum

set_option autoImplicit false
namespace MapExtract
open Element (Kind)

structure MemberEntry where
  kind : Kind
  id : Datum
  role : Datum

inductive Body
  | node (latitude longitude tile : Datum)
  | way (nodes : List Datum)
  | relation (members : List MemberEntry)

structure Entry where
  id : Datum
  version : Datum
  timestamp : Datum
  changeset : Datum
  uid : Datum
  user : Datum
  visible : Datum
  tags : Option Tags
  body : Body

def typed {α : Type} (column : String) : Option α → Except Error α
  | some a => .ok a
  | none => .error (.wrongType column)

namespace MemberEntry

def ofMember (m : Member) : MemberEntry :=
  { kind := m.kind, id := .whole m.id, role := .text m.role }

def toMember (m : MemberEntry) : Except Error Member := do
  let id ← typed "id" m.id.whole?
  return { kind := m.kind, id, role := ← typed "role" m.role.text? }

theorem toMember_ofMember (m : Member) : (ofMember m).toMember = .ok m := rfl

end MemberEntry

namespace Body

def kind : Body → Kind
  | .node .. => .node
  | .way _ => .way
  | .relation _ => .relation

def ofElement : Element → Body
  | .node n => .node (.real n.latitude) (.real n.longitude) (.ofOption .whole n.tile)
  | .way w => .way (w.nodes.map .whole)
  | .relation r => .relation (r.members.map .ofMember)

end Body

namespace Entry

def ofElement (e : Element) : Entry where
  id := .whole e.id
  version := .whole e.info.version
  timestamp := .ofOption .whole e.info.timestamp
  changeset := .ofOption .whole e.info.changeset
  uid := .ofOption .whole e.info.uid
  user := .ofOption .text e.info.user
  visible := .flag e.info.visible
  tags := e.tags
  body := .ofElement e

def toInfo (e : Entry) : Except Error Info := do
  let version ← typed "version" e.version.whole?
  let timestamp ← typed "timestamp" (e.timestamp.orNull? Datum.whole?)
  let changeset ← typed "changeset" (e.changeset.orNull? Datum.whole?)
  let uid ← typed "uid" (e.uid.orNull? Datum.whole?)
  let user ← typed "user" (e.user.orNull? Datum.text?)
  return { version, timestamp, changeset, uid, user, visible := ← typed "visible" e.visible.flag? }

def toElement (e : Entry) : Except Error Element := do
  let id ← typed "id" e.id.whole?
  let info ← e.toInfo
  match e.body with
  | .node latitude longitude tile =>
    let latitude ← typed "latitude" latitude.real?
    let longitude ← typed "longitude" longitude.real?
    let tile ← typed "tile" (tile.orNull? Datum.whole?)
    return .node { id, info, tags := e.tags, latitude, longitude, tile }
  | .way nodes =>
    let nodes ← nodes.mapM fun d => typed "nodes" d.whole?
    return .way { id, info, tags := e.tags, nodes }
  | .relation members =>
    return .relation { id, info, tags := e.tags, members := ← members.mapM MemberEntry.toMember }

theorem mapM_map_eq_ok {α β : Type} (f : β → α) (g : α → Except Error β)
    (h : ∀ b, g (f b) = .ok b) (bs : List β) : (bs.map f).mapM g = .ok bs := by
  induction bs with
  | nil => rfl
  | cons b bs ih => rw [List.map_cons, List.mapM_cons, h b, ih]; rfl

theorem toInfo_ofElement (e : Element) : (ofElement e).toInfo = .ok e.info := by
  unfold toInfo ofElement
  simp only [Datum.orNull_ofOption_whole, Datum.orNull_ofOption_text]
  rfl

theorem toElement_ofElement (e : Element) : (ofElement e).toElement = .ok e := by
  have hi := toInfo_ofElement e
  unfold toElement
  rw [hi]
  cases e with
  | node n =>
    simp only [ofElement, Body.ofElement, Datum.orNull_ofOption_whole]
    rfl
  | way w =>
    have hn : (w.nodes.map Datum.whole).mapM (fun d => typed "nodes" d.whole?) = .ok w.nodes :=
      mapM_map_eq_ok Datum.whole (fun d => typed "nodes" d.whole?) (fun _ => rfl) w.nodes
    simp only [ofElement, Body.ofElement, hn]
    rfl
  | relation r =>
    have hm := mapM_map_eq_ok _ _ MemberEntry.toMember_ofMember r.members
    simp only [ofElement, Body.ofElement, hm]
    rfl

end Entry
end MapExtract
