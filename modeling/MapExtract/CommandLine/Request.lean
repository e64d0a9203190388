import MapExtract.CommandLine.Switch
import MapExtract.Selection.Expansion
import MapExtract.Selection.MapQuery
import MapExtract.Text.Numeral

set_option autoImplicit false
namespace MapExtract.CommandLine

inductive Command
  | load
  /-- A relation with its members; the depth zero stands for no bound. -/
  | full (relation : Given Int) (maxDepth : Given Int)
  | map (box : Given String) (maxArea : Given Binary64) (maxNodes : Given Int)
deriving DecidableEq

structure Request where
  inputPath : Given String
  verbose : Bool
  command : Command
deriving DecidableEq

structure General where
  inputPath : Option (Given String)
  verbose : Bool

def General.switches : List (Switch General) :=
  [⟨"--input_path", .ofReader some fun path g => { g with inputPath := some path }⟩,
   ⟨"--verbose", .flag fun g => { g with verbose := true }⟩]

structure FullSettings where
  relation : Option (Given Int)
  maxDepth : Given Int

namespace FullSettings

def switches : List (Switch FullSettings) :=
  [⟨"--relation_id", .ofReader Text.readInt? fun n s => { s with relation := some n }⟩,
   ⟨"--max_depth", .ofReader Text.readInt? fun n s => { s with maxDepth := n }⟩]

def hasNegativeDepth (s : FullSettings) : Bool :=
  match s.maxDepth with
  | .blank => false
  | .value n => n < 0

def command (s : FullSettings) : Except Refusal Command :=
  match s.relation with
  | none => .error .misuse
  | some relation =>
    if s.hasNegativeDepth then .error .misuse else .ok (.full relation s.maxDepth)

end FullSettings

structure MapSettings where
  box : Option (Given String)
  maxArea : Given Binary64
  maxNodes : Given Int

namespace MapSettings

def switches : List (Switch MapSettings) :=
  [⟨"--bbox", .ofReader some fun box s => { s with box := some box }⟩,
   ⟨"--max_area", .ofReader Binary64.read? fun x s => { s with maxArea := x }⟩,
   ⟨"--max_nodes", .ofReader Text.readInt? fun n s => { s with maxNodes := n }⟩]

def command (s : MapSettings) : Except Refusal Command :=
  match s.box with
  | none => .error .misuse
  | some box => .ok (.map box s.maxArea s.maxNodes)

end MapSettings

def Command.read : List String → Except Refusal Command
  | [] => .error .misuse
  | name :: words =>
    if name = "load" then
      (readSettings (σ := Unit) [] () words).map fun _ => .load
    else if name = "full" then
      (readSettings FullSettings.switches ⟨none, .value defaultDepth⟩ words).bind FullSettings.command
    else if name = "map" then
      (readSettings MapSettings.switches
        ⟨none, .value Store.defaultMaxArea, .value Store.defaultMaxNodes⟩ words).bind MapSettings.command
    else .error .misuse

def Request.read (words : List String) : Except Refusal Request := do
  let r ← (Reading.start ⟨none, false⟩).words true (← scan General.switches words)
  let command ← Command.read r.command
  match r.settings.inputPath, r.surplus with
  | some inputPath, false => return { inputPath, verbose := r.settings.verbose, command }
  | _, _ => .error .misuse

end MapExtract.CommandLine
