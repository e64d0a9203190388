import MapExtract.Error

set_option autoImplicit false
namespace MapExtract.Text

def hexadecimalValue? (c : Char) : Option Nat :=
  if c.isDigit then some (c.toNat - '0'.toNat)
  else if 'a' ≤ c ∧ c ≤ 'f' then some (c.toNat - 'a'.toNat + 10)
  else if 'A' ≤ c ∧ c ≤ 'F' then some (c.toNat - 'A'.toNat + 10)
  else none

def isPlain (c : Char) : Bool := c.isAlphanum || c ∈ "-._~!$&'()*+,;=:@".toList

def decodeBytes? (more : List Char) : List Char → Option (List UInt8)
  | [] => some []
  | '%' :: high :: low :: cs => do
    let byte := 16 * (← hexadecimalValue? high) + (← hexadecimalValue? low)
    return byte.toUInt8 :: (← decodeBytes? more cs)
  | c :: cs =>
    if isPlain c || c ∈ more then (decodeBytes? more cs).map (c.toNat.toUInt8 :: ·) else none

def ofBytes? (bytes : List UInt8) : Option String := String.fromUTF8? ⟨bytes.toArray⟩

end MapExtract.Text

namespace MapExtract.Fixture

def isSlash (c : Char) : Bool := c = '/'

def dropTrailingSlashes (text : String) : String :=
  String.ofList (text.toList.reverse.dropWhile isSlash).reverse

def joinPath (root : String) (parts : List String) : String :=
  "/".intercalate
    (dropTrailingSlashes root :: parts.map fun p => String.ofList (Text.trim isSlash p.toList))

def directoryName : Element.Kind → String
  | .node => "nodes"
  | .way => "ways"
  | .relation => "relations"

def directoryPath (root : String) (k : Element.Kind) : String := joinPath root [directoryName k]

def lastName (path : String) : String :=
  String.ofList (path.toList.reverse.takeWhile (!isSlash ·)).reverse

def after? (start : List Char) (cs : List Char) : Option (List Char) :=
  if start.isPrefixOf cs then some (cs.drop start.length) else none

structure Address where
  authority : List Char
  path : List Char
  query : List Char
  fragment : List Char
deriving DecidableEq

namespace Address

def splitAuthority (cs : List Char) : List Char × List Char :=
  match after? ['/', '/'] cs with
  | none => ([], cs)
  | some rest => (rest.takeWhile (· ≠ '/'), rest.dropWhile (· ≠ '/'))

def split (cs : List Char) : Address :=
  let (body, fragment) := Text.cut '#' cs
  let (place, query) := Text.cut '?' body
  let (authority, path) := splitAuthority place
  { authority, path, query := query.getD [], fragment := fragment.getD [] }

def isPort : List Char → Bool
  | [] => true
  | ':' :: digits => digits.all Char.isDigit && Nat.ofDigitChars 10 digits 0 < 0x10000
  | _ => false

/-- An authority without a host; a user without a name and a password may stand in it. -/
def isLocal (authority : List Char) : Bool :=
  isPort (((after? [':', '@'] authority) <|> (after? ['@'] authority)).getD authority)

def isOverlooked (cs : List Char) : Bool := (Text.decodeBytes? ['/', '?'] cs).isSome

/-- The bytes of a key or a value in a query. A plus sign is a space, and a byte zero is the end. -/
def fieldBytes (cs : List Char) : List UInt8 :=
  ((Text.decodeBytes? ['/', '?', ' '] (cs.map fun c => if c = '+' then ' ' else c)).getD []).takeWhile
    (· ≠ 0)

def items (query : List Char) : List (List UInt8 × List UInt8) :=
  (query.splitOn '&').map fun item =>
    let (key, value) := Text.cut '=' item
    (fieldBytes key, fieldBytes (value.getD []))

def mappingKey : List UInt8 := "use_mmap".toUTF8.toList

def isAnswer (value : List UInt8) : Bool :=
  String.ofList (value.map fun b => (Char.ofNat b.toNat).toLower) ∈ ["0", "1", "false", "true"]

/-- The first wish for mapped memory that has a value says yes or no. -/
def hasClearWish (query : List Char) : Bool :=
  match (items query).find? fun (key, value) => key = mappingKey && value ≠ [] with
  | none => true
  | some (_, value) => isAnswer value

def pathBytes? (a : Address) : Option (List UInt8) :=
  if isLocal a.authority && isOverlooked a.query && isOverlooked a.fragment &&
      hasClearWish a.query && a.path.head? = some '/' then
    Text.decodeBytes? ['/'] a.path
  else none

end Address

def checkPath (path : String) : Except Error String :=
  if '\x00' ∈ path.toList then .error .unknownPlace else .ok path

/-- The home directories of users by their names; the empty name stands for oneself. -/
abbrev Homes := String → Option String

/-- Puts a home directory in the place of a tilde in front and the name of a user after it. The
tilde stays where there is no such user. -/
def expandHome (homes : Homes) (address : String) : Except Error String :=
  match address.toList with
  | '~' :: cs =>
    let user := cs.takeWhile (· ≠ '/')
    if '\x00' ∈ user then .error .zeroInName
    else
      match homes (String.ofList user) with
      | none => .ok address
      | some home =>
        let path := dropTrailingSlashes home ++ String.ofList (cs.dropWhile (· ≠ '/'))
        .ok (if path = "" then "/" else path)
  | _ => .ok address

def pathOfExpanded (address : String) : Except Error String :=
  if address.toList.head? = some '/' then checkPath address
  else
    match (after? "file:".toList address.toList).bind fun cs => (Address.split cs).pathBytes? with
    | none => .error .unknownPlace
    | some bytes =>
      match Text.ofBytes? bytes with
      | none => .error .undecodablePath
      | some path => checkPath path

def pathOf (homes : Homes) (address : String) : Except Error String := do
  pathOfExpanded (← expandHome homes address)

end MapExtract.Fixture
