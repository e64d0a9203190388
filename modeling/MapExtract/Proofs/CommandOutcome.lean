import MapExtract.Proofs.CommandSelection
import MapExtract.Proofs.FixtureLoading
import MapExtract.Proofs.PartialLoading

/-!
If a version was written twice or a node has no place, the fixture cannot be loaded, and the command
ends without an exit code, because the errors of loading are not among those of requests.
-/

set_option autoImplicit false
namespace MapExtract.CommandLine
open Element (Kind)
open Fixture

/-- The directories of a fixture lie below a root. Their rows are found in any order. -/
def FoundAt (found : Finder) (root : String) (d : Directories) : Prop :=
  ∀ k, ∃ held, found (directoryPath root k) k = .ok held ∧
    ((held.getD []).flatMap File.contents).Perm (d.rows k)

/-- A selection is printed, one line for each element in order; an error is reported. -/
def Reports (outcome : Outcome) : Except Error Draft → Prop
  | .ok d => outcome.exit = .ok 0 ∧ outcome.printed = d.selection.toList.map fun e =>
      s!"{e.kind.name}/{e.id} v{e.version}"
  | .error cause => outcome.exit = .ok 1 ∧ outcome.printed = [] ∧
      outcome.events.getLast? = some (.failed cause)

/-- An error ends a command without an exit code, and nothing is printed. -/
def Escapes (outcome : Outcome) (cause : Error) : Prop :=
  outcome.exit = .error cause ∧ outcome.printed = []

def Gives (found : Finder) (root : String) (parts : Kind → List Element) : Prop :=
  ∀ k, ∃ held, found (directoryPath root k) k = .ok held ∧
    readFiles k (held.getD []) = .ok (parts k)

theorem loadKinds_eq {found : Finder} {root : String} {parts : Kind → List Element}
    (gives : Gives found root parts) (store : Store) (summary : Summary) (ks : List Kind) :
    (loadKinds root found store summary ks).2 = (store.loadAfter summary (ks.flatMap parts)).2.map
      fun counted => ((store.loadAfter summary (ks.flatMap parts)).1, counted) := by
  induction ks generalizing store summary with
  | nil => rfl
  | cons k ks ih =>
    obtain ⟨held, hf, hr⟩ := gives k
    rw [loadKinds, hf, List.flatMap_cons]
    cases held with
    | none =>
      have none : parts k = [] := by
        simpa [readFiles, pure, Except.pure, bind, Except.bind] using hr.symm
      rw [none, List.nil_append]
      exact ih store summary
    | some files =>
      rw [Option.getD_some] at hr
      rw [Store.loadAfter_append]
      dsimp only
      rw [hr]
      dsimp only
      cases store.loadAfter summary (parts k) with
      | mk kept outcome =>
        cases outcome with
        | error cause => rfl
        | ok counted => exact ih kept counted

theorem FoundAt.exists_gives {found : Finder} {root : String} {d : Directories}
    (held : FoundAt found root d)
    (readable : ∀ k, ∃ es, (d.rows k).mapM (Row.readElement k) = .ok es) :
    ∃ parts, Gives found root parts ∧ d.Lists (kinds.flatMap parts) := by
  have each : ∀ k, ∃ part : List Element,
      (∃ held, found (directoryPath root k) k = .ok held ∧ readFiles k (held.getD []) = .ok part) ∧
        Ascending part ∧
          ∃ rows : List Row, rows.Perm (d.rows k) ∧ rows.mapM (Row.readElement k) = .ok part := by
    intro k
    obtain ⟨files, hf, perm⟩ := held k
    have rows := (mapM_isOk_iff _ _).mp (readable k)
    obtain ⟨es, he⟩ := (mapM_isOk_iff _ _).mpr fun row hrow => rows row (perm.mem_iff.mp hrow)
    have sorted := mergeSort_stablySorted es
    obtain ⟨reordered, perm', hr⟩ := exists_perm_mapM_eq_ok he sorted.perm
    refine ⟨es.mergeSort readsBefore, ⟨files, hf, ?_⟩, sorted.ascending, reordered,
      perm'.trans perm, hr⟩
    rw [readFiles, he]
    rfl
  choose parts read listed using each
  refine ⟨parts, read, ⟨parts .node, parts .way, parts .relation⟩, by simp [kinds], fun k => ?_⟩
  cases k
  · exact listed .node
  · exact listed .way
  · exact listed .relation

theorem failure_of_not_request {cause : Error} (h : cause.isRequestError = false) :
    Outcome.failure cause = ⟨[], [], .error cause⟩ := by
  simp only [Outcome.failure, h, Bool.false_eq_true, if_false]

section
variable {store : Store} {command : Command}

theorem reports_print (requests : ∀ cause, command.select store = .error cause →
    cause.isRequestError = true) (before : List Event) :
    Reports ((print store command).report before) (command.select store) := by
  unfold print
  cases hc : command.select store with
  | ok d => exact ⟨rfl, rfl⟩
  | error cause =>
    simp only [Outcome.failure, requests cause hc, if_true]
    exact ⟨rfl, rfl, List.getLast?_concat⟩

theorem escapes_print {cause : Error} (h : command.select store = .error cause)
    (notRequest : cause.isRequestError = false) (before : List Event) :
    Escapes ((print store command).report before) cause := by
  unfold print
  rw [h]
  dsimp only
  rw [failure_of_not_request notRequest]
  exact ⟨rfl, rfl⟩

end

section
variable {r : Request} {homes : Homes} {root : String} {runs : List Run} {d : Directories}
  {found : Finder}

theorem exists_run_eq (path : r.path homes = .ok root) (written : writeRuns runs = .ok d)
    (held : FoundAt found root d) : ∃ listed before, d.Lists listed ∧
      r.run homes found = match Store.empty.load listed with
        | (_, .error cause) => (Outcome.failure cause).report before
        | (store, .ok summary) => (print store r.command).report (before ++ loadedEvents summary) := by
  obtain ⟨parts, gives, lists⟩ := held.exists_gives fun k =>
    ⟨_, rows_writeRuns written k ▸ mapM_rowsOf k _⟩
  have loaded : (loadKinds root found .empty .empty kinds).2 =
      (Store.empty.load (kinds.flatMap parts)).2.map
        fun counted => ((Store.empty.load (kinds.flatMap parts)).1, counted) :=
    loadKinds_eq gives .empty .empty kinds
  refine ⟨kinds.flatMap parts, (loadKinds root found .empty .empty kinds).1, lists, ?_⟩
  rw [Request.run, path]
  dsimp only
  rw [Request.runAt]
  cases hk : loadKinds root found .empty .empty kinds with
  | mk events result =>
    rw [hk] at loaded
    obtain rfl : result = _ := loaded
    rcases Store.empty.load (kinds.flatMap parts) with ⟨store, cause | summary⟩ <;> rfl

/-- On a fixture that can be loaded, only a blank value keeps a command from an exit code. -/
theorem ends_of_loadable (nonneg : r.command.DepthNonneg)
    (path : r.path homes = .ok root) (written : writeRuns runs = .ok d)
    (held : FoundAt found root d) (loadable : Loadable (elementsOf runs)) :
    (r.command.Complete ∧ ∃ listed store summary answer, d.Lists listed ∧
        Store.empty.load listed = (store, .ok summary) ∧ Asks store r.command answer ∧
        Reports (r.run homes found) answer) ∨
      (¬r.command.Complete ∧ ((∃ answer, Reports (r.run homes found) answer) ∨
        ∃ cause, cause.IsBlank ∧ Escapes (r.run homes found) cause)) := by
  obtain ⟨listed, before, lists, run⟩ := exists_run_eq path written held
  obtain ⟨summary, ok⟩ := (lists.listing (rows_writeRuns written)).loads_iff.mpr loadable
  have reached : Store.Reachable (Store.empty.load listed).1 := Store.Reached.empty.load
  have loaded : Store.empty.load listed = ((Store.empty.load listed).1, .ok summary) :=
    Prod.ext rfl ok
  rw [loaded] at run
  rw [run]
  by_cases complete : r.command.Complete
  · have asks := asks_select (Store.empty.load listed).1 complete nonneg
    exact .inl ⟨complete, listed, _, summary, _, lists, loaded, asks,
      reports_print (fun cause => asks.isRequestError reached.wellFormed) _⟩
  · refine .inr ⟨complete, ?_⟩
    by_cases requests : ∀ cause, r.command.select (Store.empty.load listed).1 = .error cause →
        cause.isRequestError = true
    · exact .inl ⟨_, reports_print requests _⟩
    · push Not at requests
      obtain ⟨cause, failed, notRequest⟩ := requests
      have blank := (select_eq_error reached.wellFormed nonneg failed).resolve_left notRequest
      exact .inr ⟨cause, blank, escapes_print failed blank.not_request _⟩

theorem escapes_of_not_loadable (path : r.path homes = .ok root) (written : writeRuns runs = .ok d)
    (held : FoundAt found root d) (stuck : ¬Loadable (elementsOf runs)) :
    ∃ cause, cause.StopsLoading ∧ Escapes (r.run homes found) cause := by
  obtain ⟨listed, before, lists, run⟩ := exists_run_eq path written held
  rw [← (lists.listing (rows_writeRuns written)).loads_iff] at stuck
  rw [run]
  cases hl : Store.empty.load listed with
  | mk store outcome =>
    cases outcome with
    | error cause =>
      have stops := Store.loadAfter_eq_error hl
      dsimp only
      rw [failure_of_not_request stops.not_request]
      exact ⟨cause, stops, rfl, rfl⟩
    | ok summary => exact absurd ⟨summary, by rw [hl]⟩ stuck

end

/-- If the fixture can be loaded, a command without blank values prints its selection and ends with
the exit code 0, or prints nothing and ends with 1. If it cannot be loaded, the error ends the
command without an exit code. -/
theorem command_ends {words : List String} {r : Request} {homes : Homes} {root : String}
    {runs : List Run} {d : Directories} {found : Finder} (read : Request.read words = .ok r)
    (path : r.path homes = .ok root) (written : writeRuns runs = .ok d)
    (held : FoundAt found root d) :
    (Loadable (elementsOf runs) ∧ r.command.Complete ∧ ∃ listed store summary answer,
        d.Lists listed ∧ Store.empty.load listed = (store, .ok summary) ∧
        Asks store r.command answer ∧ Reports (r.run homes found) answer) ∨
      (Loadable (elementsOf runs) ∧ ¬r.command.Complete ∧
        ((∃ answer, Reports (r.run homes found) answer) ∨
          ∃ cause, cause.IsBlank ∧ Escapes (r.run homes found) cause)) ∨
      (¬Loadable (elementsOf runs) ∧ ∃ cause, cause.StopsLoading ∧
        Escapes (r.run homes found) cause) := by
  by_cases loadable : Loadable (elementsOf runs)
  · rcases ends_of_loadable (Request.depthNonneg read) path written held loadable with
      complete | incomplete
    · exact .inl ⟨loadable, complete⟩
    · exact .inr (.inl ⟨loadable, incomplete⟩)
  · exact .inr (.inr ⟨loadable, escapes_of_not_loadable path written held loadable⟩)

private def rail : Element := .way ⟨1, .bare 1 true, none, [2]⟩

private def halt : Element :=
  .node ⟨2, .bare 1 true, none, .zero false, .infinite true, none⟩

private def tram : Element :=
  .relation ⟨3, .bare 1 true, none, [⟨.relation, 3, ""⟩, ⟨.way, 1, ""⟩]⟩

private def tramways : List Run :=
  [⟨{}, fun _ _ _ => 0, [tram, rail]⟩, ⟨{ maxRows := some 1 }, fun _ _ _ => 0, [halt]⟩]

private def wholeTram : Request := ⟨.value "/tram", false, .full (.value 3) (.value 0)⟩

theorem foundAt_get (root : String) (d : Directories) :
    FoundAt (fun _ k => .ok (d.get k)) root d :=
  fun k => ⟨d.get k, rfl, .refl _⟩

theorem command_ends_tram :
    Request.read ["--input_path=/tram", "full", "--relation_id", "3", "--max_depth", "0"] =
      .ok wholeTram ∧ wholeTram.path (fun _ => none) = .ok "/tram" ∧
    ∃ d, writeRuns tramways = .ok d ∧ FoundAt (fun _ k => .ok (d.get k)) "/tram" d ∧
      Loadable (elementsOf tramways) ∧ wholeTram.command.Complete ∧
      ∃ listed store summary answer, d.Lists listed ∧
        Store.empty.load listed = (store, .ok summary) ∧ Asks store wholeTram.command answer ∧
        Reports (wholeTram.run (fun _ => none) fun _ k => .ok (d.get k)) answer := by
  have read : Request.read ["--input_path=/tram", "full", "--relation_id", "3", "--max_depth", "0"] =
      .ok wholeTram := by decide +kernel
  have complete : wholeTram.command.Complete := ⟨nofun, nofun⟩
  have path : wholeTram.path (fun _ => none) = .ok "/tram" := by decide +kernel
  have loadable : Loadable (elementsOf tramways) := ⟨by decide, by decide⟩
  obtain ⟨d, written⟩ : ∃ d, writeRuns tramways = .ok d := writeRuns_isOk (by decide) (by decide)
  have held := foundAt_get "/tram" d
  have ends := (command_ends read path written held).resolve_right fun h =>
    h.elim (fun blank => blank.2.1 complete) fun stuck => stuck.1 loadable
  exact ⟨read, path, d, written, held, ends⟩

private def railTwice : List Run := [⟨{}, fun _ _ _ => 0, [rail]⟩, ⟨{}, fun _ _ _ => 0, [rail]⟩]

private def loadTram : Request := ⟨.value "/tram", false, .load⟩

theorem exit_code_needs_loadable_fixture : ¬ ∀ (words : List String) (r : Request) (homes : Homes)
    (root : String) (runs : List Run) (d : Directories) (found : Finder),
    Request.read words = .ok r → r.command.Complete → r.path homes = .ok root →
      (∀ e ∈ elementsOf runs, e.Fits) → writeRuns runs = .ok d → FoundAt found root d →
        ∃ code, (r.run homes found).exit = .ok code := by
  intro always
  have read : Request.read ["--input_path=/tram", "load"] = .ok loadTram := by decide +kernel
  have path : loadTram.path (fun _ => none) = .ok "/tram" := by decide +kernel
  have fits : ∀ e ∈ elementsOf railTwice, e.Fits := by decide
  have stuck : ¬Loadable (elementsOf railTwice) := fun loadable => absurd loadable.distinct (by decide)
  obtain ⟨d, written⟩ : ∃ d, writeRuns railTwice = .ok d := writeRuns_isOk (by decide) fits
  have held := foundAt_get "/tram" d
  obtain ⟨code, exit⟩ := always _ _ _ _ _ _ _ read trivial path fits written held
  obtain ⟨cause, _, escaped, _⟩ := escapes_of_not_loadable path written held stuck
  rw [exit] at escaped
  cases escaped

end MapExtract.CommandLine
