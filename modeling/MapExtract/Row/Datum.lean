import MapExtract.Binary64.Text
import MapExtract.Text.Quoted

set_option autoImplicit false
namespace MapExtract

inductive Datum
  | null
  | flag (value : Bool)
  | whole (value : Int)
  | real (value : Binary64)
  | text (value : String)
  | list (items : List Datum)
  | record (fields : List (String × Datum))
deriving Inhabited

namespace Datum

def flag? : Datum → Option Bool
  | .flag value => some value
  | _ => none

def whole? : Datum → Option Int
  | .whole value => some value
  | _ => none

def real? : Datum → Option Binary64
  | .real value => some value
  | _ => none

def text? : Datum → Option String
  | .text value => some value
  | _ => none

def orNull? {α : Type} (read? : Datum → Option α) : Datum → Option (Option α)
  | .null => some none
  | d => (read? d).map some

def ofOption {α : Type} (write : α → Datum) : Option α → Datum
  | none => .null
  | some a => write a

theorem orNull_ofOption_whole (n : Option Int) : orNull? whole? (ofOption .whole n) = some n := by
  cases n <;> rfl

theorem orNull_ofOption_text (s : Option String) : orNull? text? (ofOption .text s) = some s := by
  cases s <;> rfl

mutual

def shown : Datum → String
  | .null => "None"
  | .flag value => if value then "True" else "False"
  | .whole value => toString value
  | .real value => value.text
  | .text value => Text.quoted value
  | .list items => "[" ++ ", ".intercalate (shownItems items) ++ "]"
  | .record fields => "\x7b" ++ ", ".intercalate (shownFields fields) ++ "\x7d"

def shownItems : List Datum → List String
  | [] => []
  | d :: ds => d.shown :: shownItems ds

def shownFields : List (String × Datum) → List String
  | [] => []
  | (name, d) :: fs => (Text.quoted name ++ ": " ++ d.shown) :: shownFields fs

end

end Datum
end MapExtract
