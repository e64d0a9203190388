import MapExtract.BoundingBox.Basic
import MapExtract.Decimal
import MapExtract.Element
import MapExtract.Text.Quoted

set_option autoImplicit false
namespace MapExtract
open Element (Kind)

inductive Error
  | unreadable (cause : Decimal.ReadError)
  | overflow
  | notFinite (value : Decimal.Special)
  | boxFormat
  | invalidBox (flaw : BoundingBox.Flaw)
  | boxTooLarge (limit : Binary64)
  | notFound (kind : Kind) (id : Int)
  | gone (kind : Kind) (id : Int)
  | versionConflict (kind : Kind) (id version last : Int)
  | depthTooSmall (depth : Int)
  | tooManyNodes (limit : Int)
  | batchSizeTooSmall
  | batchSizeTooLarge
  | sizeCheckIntervalZero
  | outsideWord
  | outsideColumn
  | missing (name : String)
  | wrongType (column : String)
  | nullMember
  | unknownKind (shown : String)
  | unknownPlace
  | undecodablePath
  | zeroInName
  | nameTooLong
  | missingDirectory
  | notRemovable
  | blankBox
  | blankValue
deriving DecidableEq, Repr

/-- The errors of a request, which a command reports; all others end it. -/
def Error.isRequestError : Error → Bool
  | .boxFormat | .invalidBox _ | .boxTooLarge _ | .notFound _ _ | .gone _ _ | .tooManyNodes _ => true
  | _ => false

def Error.message : Error → String
  | .unreadable .malformed => "[<class 'decimal.ConversionSyntax'>]"
  | .unreadable .outOfRange => "[<class 'decimal.InvalidOperation'>]"
  | .overflow => "[<class 'decimal.Overflow'>]"
  | .notFinite value => s!"Coordinate {value.text} has no fixed-point form"
  | .boxFormat =>
    "The parameter bbox is required, and must be of the form min_lon,min_lat,max_lon,max_lat."
  | .invalidBox flaw =>
    "The latitudes must be between -90 and 90, longitudes between -180 and 180 " ++
      s!"and the minima must be less than the maxima ({flaw.text})."
  | .boxTooLarge limit =>
    s!"The maximum bbox size is {limit.text}, and your request was too large. " ++
      "Either request a smaller area, or use planet.osm"
  | .notFound kind id => s!"{kind.name} {id} not found"
  | .gone kind id => s!"{kind.name} {id} has been deleted"
  | .versionConflict kind id version last =>
    s!"{kind.name} {id} version {version} does not follow version {last}"
  | .depthTooSmall depth => s!"max_depth must be at least 1, got {depth}"
  | .tooManyNodes limit =>
    s!"You requested too many nodes (limit is {limit}). " ++
      "Either request a smaller area, or use planet.osm"
  | .batchSizeTooSmall => "n must be at least one"
  | .batchSizeTooLarge =>
    "Stop argument for islice() must be None or an integer: 0 <= x <= sys.maxsize."
  | .sizeCheckIntervalZero => "integer modulo by zero"
  | .missing name => Text.quoted name
  | .wrongType column => s!"{column} has the wrong type"
  | .zeroInName => "embedded null byte"
  | .unknownKind shown => s!"{shown} is not a valid ElementType"
  | .outsideWord | .outsideColumn | .nullMember | .unknownPlace | .undecodablePath | .nameTooLong
  | .missingDirectory | .notRemovable | .blankBox | .blankValue => ""

end MapExtract
