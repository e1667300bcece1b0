import Stencil.Config.Settings
import Stencil.Parser.Load
import Stencil.Session.Basic
import Stencil.Source.Registry

/-!
# The engine

An engine holds what all renders share: the markers, the resolver, the escaper, and the cache of
templates. It is built once, from settings that are checked then.

**Files.** A resolver may look at files, which change over time. The engine keeps it as a function
of the file tree, and each operation is given the tree as it is at the moment.
-/

namespace Stencil

/-- Why something an engine was asked for failed. -/
inductive Error where
  | load (e : LoadError)
  | bind (e : BindError)
  | marker (e : MarkerError)
  | config (e : ConfigError)
  deriving DecidableEq, Repr

structure Engine where
  markers : Markers
  resolver : FileTree → Resolver
  escaper : Escaper
  kind : EscapeKind
  bench : Bench

namespace Engine

/-- The resolver over a list of directories, which must all exist. -/
def searching (files : FileTree) (dirs : List Text) : Except ResolveError (FileTree → Resolver) :=
  if dirs.isEmpty then .ok fun _ => .none
  else (Registry.empty.addDirs files dirs).map Registry.resolver

/-- Builds an engine. Without a resolver of its own it searches the template directories; without
an escaper of its own it uses the standard one. -/
def build (files : FileTree) (s : Settings) (resolver? : Option (FileTree → Resolver))
    (escaper? : Option Escaper) : Except Error Engine := do
  if let some e := s.markers.error? then throw (.marker e)
  let resolver ← match resolver? with
    | some r => pure r
    | none => (searching files s.dirs).mapError fun e => .load (.resolve e)
  return ⟨s.markers, resolver, escaper?.getD standardEscaper, s.kind, .ofCapacity s.capacity⟩

def cache (e : Engine) : Cache SourceId Template := e.bench.1

/-- The engine's parser over the files as they are. -/
def parser (e : Engine) (files : FileTree) : Parser := ⟨e.markers, e.resolver files, true⟩

/-- Runs a step of the parser. -/
def run {α : Type} (e : Engine) (step : Parsing α) : Except LoadError α × Engine :=
  let (r, bench) := step.run.run e.bench
  (r, { e with bench })

/-- The template at a path, parsed when it is first used. -/
def load (e : Engine) (files : FileTree) (path : Text) : Except LoadError Template × Engine :=
  e.run ((e.parser files).load path)

/-- Parses a text as an anonymous template, which is not cached; what it includes is. -/
def parseText (e : Engine) (files : FileTree) (source : Text) :
    Except LoadError Template × Engine :=
  e.run ((e.parser files).parseText source)

/-- Loads several paths, one after another. -/
def loadAll (e : Engine) (files : FileTree) :
    List Text → List (Except LoadError Template) × Engine
  | [] => ([], e)
  | path :: rest =>
    let (r, e) := e.load files path
    let (rs, e) := loadAll e files rest
    (r :: rs, e)

/-- Drops the cached template of a path; tells whether there was one. -/
def invalidate (e : Engine) (files : FileTree) (path : Text) : Except LoadError Bool × Engine :=
  match (e.parser files).locate path with
  | .error err => (.error err, e)
  | .ok none => (.ok false, e)
  | .ok (some id) =>
    let (removed, cache) := e.cache.invalidate id
    (.ok removed, { e with bench := (cache, e.bench.2) })

/-- Drops all cached templates. -/
def clear (e : Engine) : Engine := { e with bench := (e.cache.clear, e.bench.2) }

/-- A session with the engine's escaper and kind of escaping. -/
def session (e : Engine) (t : Template) : Session := ⟨.new t, e.escaper, e.kind⟩

/-- Loads a template, seeds it from data and renders it. -/
def renderData (e : Engine) (files : FileTree) (path : Text) (data : Datum) :
    Except Error Text × Engine :=
  match e.load files path with
  | (.error err, e) => (.error (.load err), e)
  | (.ok t, e) =>
    match (e.session t).seedData data with
    | (_, .error err) => (.error (.bind err), e)
    | (s, .ok ()) => (s.render.mapError .bind, e)

end Engine

end Stencil
