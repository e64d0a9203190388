import MapExtract.Store.Basic
import MapExtract.Summary.Batched

set_option autoImplicit false
namespace MapExtract.Store
open Element (Key)

def appendIn (k : Key) (e : Element) : List (Key × History) → List (Key × History)
  | [] => [(k, [e])]
  | (a, h) :: rest => if a = k then (a, h ++ [e]) :: rest else (a, h) :: appendIn k e rest

def append (s : Store) (e : Element) : Store × Except Error Unit :=
  let kept : Store := { s with histories := appendIn e.key e s.histories }
  match e with
  | .node n =>
    match n.indexTile with
    | .ok tile => ({ kept with index := kept.index.place n.id tile }, .ok ())
    | .error cause => (kept, .error cause)
  | _ => (kept, .ok ())

/-- Adds a version, which has to follow the last one of its element. -/
def add (s : Store) (e : Element) : Store × Except Error Unit :=
  match s.current? e.key with
  | some last =>
    if e.version ≤ last.version then
      (s, .error (.versionConflict e.kind e.id e.version last.version))
    else s.append e
  | none => s.append e

def ofList (es : List Element) : Except Error Store :=
  es.foldlM (fun s e => (s.add e).2.map fun _ => (s.add e).1) empty

theorem historyIn_appendIn (k k' : Key) (e : Element) (hs : List (Key × History)) :
    historyIn k' (appendIn k e hs) =
      if k' = k then historyIn k hs ++ [e] else historyIn k' hs := by
  induction hs with
  | nil =>
    by_cases h : k' = k
    · simp [appendIn, historyIn, h]
    · simp [appendIn, historyIn, h, Ne.symm h]
  | cons head rest ih =>
    obtain ⟨a, h⟩ := head
    simp only [appendIn]
    by_cases ha : a = k
    · subst ha
      by_cases hk : k' = a
      · simp [historyIn, hk]
      · simp [historyIn, hk, Ne.symm hk]
    · simp only [if_neg ha, historyIn, ih]
      by_cases hk : k' = k
      · simp [hk, ha]
      · simp [hk]

theorem append_histories (s : Store) (e : Element) :
    (s.append e).1.histories = appendIn e.key e s.histories := by
  unfold append
  split
  · split <;> rfl
  · rfl

theorem history_append (s : Store) (e : Element) (k : Key) :
    (s.append e).1.history k = if k = e.key then s.history k ++ [e] else s.history k := by
  rw [history, append_histories, historyIn_appendIn]
  by_cases h : k = e.key <;> simp [h, history]

def loadAfter (s : Store) (summary : Summary) : List Element → Store × Except Error Summary
  | [] => (s, .ok summary)
  | e :: es =>
    match summary.offer e with
    | (_, .error cause) => (s, .error cause)
    | (counted, .ok placed) =>
      match s.add placed with
      | (kept, .error cause) => (kept, .error cause)
      | (kept, .ok ()) => kept.loadAfter counted es

def load (s : Store) (es : List Element) : Store × Except Error Summary := s.loadAfter .empty es

end MapExtract.Store
