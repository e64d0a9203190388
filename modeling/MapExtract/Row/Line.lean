import MapExtract.Row.Reader
import MapExtract.Text.Numeral

/-!
Rows as lines of text. Cells stand between tabs, the items of a list between commas, and the parts
of an item between colons. Null is a backslash and `N`, and a null item of a list is a backslash and
a hyphen.
-/

set_option autoImplicit false
namespace MapExtract.Row
open Element (Kind)

def ofLetter? (l : Char) : Option Char :=
  if l = '\\' then some '\\'
  else if l = 't' then some '\t'
  else if l = 'n' then some '\n'
  else if l = 'r' then some '\r'
  else if l = 'c' then some ','
  else if l = 'p' then some ':'
  else none

def unescape? : List Char → Option (List Char)
  | [] => some []
  | '\\' :: l :: cs => (ofLetter? l).bind fun c => (unescape? cs).map (c :: ·)
  | c :: cs => if c = '\\' then none else (unescape? cs).map (c :: ·)

def nullItem : List Char := ['\\', '-']

def readNull? {α : Type} (read? : List Char → Option α) (cs : List Char) : Option (Option α) :=
  if cs = ['\\', 'N'] then some none else (read? cs).map some

def readItems? {α : Type} (read? : List Char → Option α) (cs : List Char) : Option (List α) :=
  if cs = [] then some [] else (cs.splitOn ',').mapM read?

def readWhole? (cs : List Char) : Option Datum :=
  (Text.readInt? (String.ofList cs)).map Datum.whole

def readReal? (cs : List Char) : Option Datum :=
  (Binary64.read? (String.ofList cs)).map Datum.real

def readString? (cs : List Char) : Option String := (unescape? cs).map String.ofList

def readText? (cs : List Char) : Option Datum := (readString? cs).map Datum.text

def readFlag? (cs : List Char) : Option Datum :=
  if cs = ['t'] then some (.flag true) else if cs = ['f'] then some (.flag false) else none

def readDatum? (read? : List Char → Option Datum) (cs : List Char) : Option Datum :=
  (readNull? read? cs).map fun d => d.getD .null

def readId? (cs : List Char) : Option Datum :=
  if cs = nullItem then some .null else readWhole? cs

def readPair? (cs : List Char) : Option (String × Option String) :=
  match cs.splitOn ':' with
  | [k, v] => do return (← readString? k, ← readNull? readString? v)
  | _ => none

def readMember? (cs : List Char) : Option (Option MemberCell) :=
  if cs = nullItem then some none
  else
    match cs.splitOn ':' with
    | [id, role, kind] => do
      return some { id := some (← readDatum? readWhole? id), role := some (← readDatum? readText? role),
                    kind := some (← readDatum? readText? kind) }
    | _ => none

def readCell? (column : String) (cs : List Char) : Option Cell :=
  if column = "latitude" ∨ column = "longitude" then (readDatum? readReal? cs).map .datum
  else if column = "visible" then (readDatum? readFlag? cs).map .datum
  else if column = "user" then (readDatum? readText? cs).map .datum
  else if column = "tags" then (readNull? (readItems? readPair?) cs).map .pairs
  else if column = "nodes" then (readNull? (readItems? readId?) cs).map .ids
  else if column = "members" then (readNull? (readItems? readMember?) cs).map .members
  else (readDatum? readWhole? cs).map .datum

def ofLine (k : Kind) (line : String) : Row :=
  ((columnsOf k).zip (line.toList.splitOn '\t')).filterMap fun (column, cs) =>
    (readCell? column cs).map (column, ·)

end MapExtract.Row
