import MapExtract.Text.Character

/-!
Switches on a command line. A name may be cut short while it is the only one that begins so. No word
after `--` is a switch. A word with a hyphen in front is a value only if it looks like a negative
number or holds a space.
-/

set_option autoImplicit false
namespace MapExtract.CommandLine

inductive Given (α : Type)
  | blank
  | value (a : α)
deriving DecidableEq, Repr

namespace Given

variable {α β : Type}

def ofText (text : String) : Given String := if text = "--" then .blank else .value text

def read? (f : α → Option β) : Given α → Option (Given β)
  | .blank => some .blank
  | .value a => (f a).map .value

def get {ε : Type} (cause : ε) : Given α → Except ε α
  | .blank => .error cause
  | .value a => .ok a

end Given

inductive Action (σ : Type)
  | help
  | flag (set : σ → σ)
  | value (set? : Given String → σ → Option σ)

def Action.ofReader {σ α : Type} (read? : String → Option α) (set : Given α → σ → σ) : Action σ :=
  .value fun given s => (given.read? read?).map fun a => set a s

structure Switch (σ : Type) where
  name : String
  action : Action σ

inductive Refusal
  | helpWanted
  | misuse
deriving DecidableEq, Repr

inductive Word (σ : Type)
  | plain
  | stop
  | switch (action : Action σ) (attached : Option String)
  | unknown

variable {σ : Type}

def withHelp (switches : List (Switch σ)) : List (Switch σ) := ⟨"--help", .help⟩ :: switches

/-- A hyphen, then digits with at most one point among them and a digit at the end. A line break
after that is overlooked. -/
def looksNegative (cs : List Char) : Bool :=
  let isDigit (c : Char) : Bool := (Text.digitValue? c).isSome
  match if cs.getLast? = some '\n' then cs.dropLast else cs with
  | '-' :: body =>
    match body.dropWhile isDigit with
    | [] => body ≠ []
    | '.' :: fraction => fraction ≠ [] && fraction.all isDigit
    | _ => false
  | _ => false

/-- What follows the short switch for help, which may be repeated in one word, with an equals sign
after the first letter or without one. Nothing else can stand in such a word. -/
def shortHelp (cs : List Char) : Word σ :=
  let isRepeated : Bool := match cs with
    | '=' :: rest => rest ≠ [] && rest.all (· = 'h')
    | _ => cs.all (· = 'h')
  .switch .help (if isRepeated then none else some (String.ofList cs))

def unnamed (cs : List Char) : Word σ :=
  if looksNegative cs || ' ' ∈ cs then .plain else .unknown

/-- A word before any `--`, which is refused if it could be short for several switches. -/
def classify (switches : List (Switch σ)) (word : String) : Except Refusal (Word σ) :=
  match word.toList with
  | '-' :: '-' :: cs =>
    let (name, value) := Text.cut '=' ('-' :: '-' :: cs)
    let attached := value.map String.ofList
    let all := withHelp switches
    match all.find? fun s => s.name.toList = name with
    | some s => .ok (.switch s.action attached)
    | none =>
      match all.filter fun s => name.isPrefixOf s.name.toList with
      | [] => .ok (unnamed word.toList)
      | [s] => .ok (.switch s.action attached)
      | _ => .error .misuse
  | '-' :: 'h' :: cs => .ok (shortHelp cs)
  | ['-'] => .ok .plain
  | '-' :: cs => .ok (unnamed ('-' :: cs))
  | _ => .ok .plain

def scan (switches : List (Switch σ)) : List String → Except Refusal (List (String × Word σ))
  | [] => .ok []
  | word :: words =>
    if word = "--" then .ok ((word, .stop) :: words.map (·, .plain))
    else do
      let first ← classify switches word
      return (word, first) :: (← scan switches words)

structure Reading (σ : Type) where
  settings : σ
  surplus : Bool
  command : List String

namespace Reading

def start (settings : σ) : Reading σ := ⟨settings, false, []⟩

def assign (r : Reading σ) (set? : Given String → σ → Option σ) (value : Given String) :
    Except Refusal (Reading σ) :=
  match set? value r.settings with
  | some settings => .ok { r with settings := settings }
  | none => .error .misuse

/-- Reads words in their order. Where a command is expected the first other word is its name, and
else such a word is one too many. -/
def words (expectsCommand : Bool) (r : Reading σ) :
    List (String × Word σ) → Except Refusal (Reading σ)
  | [] => .ok r
  | (_, .switch .help none) :: _ => .error .helpWanted
  | (_, .switch (.flag set) none) :: ws =>
    words expectsCommand { r with settings := set r.settings } ws
  | (_, .switch (.value set?) (some value)) :: ws => do
    words expectsCommand (← r.assign set? (.ofText value)) ws
  | (_, .switch (.value set?) none) :: (value, .plain) :: ws => do
    words expectsCommand (← r.assign set? (.value value)) ws
  | (_, .switch _ _) :: _ => .error .misuse
  | (_, .unknown) :: ws => words expectsCommand { r with surplus := true } ws
  | (word, _) :: ws =>
    if expectsCommand then .ok { r with command := word :: ws.map Prod.fst }
    else words expectsCommand { r with surplus := true } ws

end Reading

def readSettings (switches : List (Switch σ)) (start : σ) (words : List String) :
    Except Refusal σ := do
  let r ← (Reading.start start).words false (← scan switches words)
  if r.surplus then .error .misuse else .ok r.settings

end MapExtract.CommandLine
