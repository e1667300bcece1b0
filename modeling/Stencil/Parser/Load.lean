import Stencil.Parser.Level

/-!
# Loading templates

**The parser** (`Parser`). Markers, a resolver, and whether included templates are shared through
the cache.

**Includes** (`Parser.loadIncluded`). An include is located by its path. A source that is already
being read, in the stack of includes, would include itself: that is a cycle, reported with the
stack and the source that closes it.

**Ending.** A stack of includes holds no source twice, and the resolver reaches no further than
`reach` sources, so that many nested loads suffice.
-/

namespace Stencil

structure Parser where
  markers : Markers
  resolver : Resolver
  caching : Bool

namespace Parser

/-- Parses a source, given what an include in it leads to. -/
def parseWith (p : Parser) (load : Draft → Text → Nat → Parsing Template)
    (id : Option SourceId) (source : Text) : Parsing Template := do
  let stamp ← freshStamp id
  let d ← Draft.ofSource p.markers.ditch stamp.origin source
  let parts ← level d (load d) .empty (tokenize p.markers d.text).pieces
  return ⟨stamp, parts⟩

/-- The text of a source. -/
def readText (p : Parser) (id : SourceId) : Except LoadError Text := do
  match p.resolver.read id with
  | .error e => throw (.resolve e)
  | .ok bytes =>
    match Text.ofBytes? bytes with
    | some t => return t
    | none => throw (.resolve (.invalidUtf8 id.text))

/-- Finds a source by its path. -/
def locate (p : Parser) (path : Text) : Except LoadError (Option SourceId) :=
  match p.resolver.locate path with
  | .ok id? => .ok id?
  | .error e => .error (.resolve e)

/-- The template of a source from the cache, or through `parse` if it is not there. -/
def cached (p : Parser) (id : SourceId) (parse : Parsing Template) : Parsing Template :=
  if p.caching then fun bench => Cache.getOrParse 0 id (fun b => parse.run b) bench else parse

/-- The template of an include in a source with the given stack of includes, where `load` loads
another source on top of that stack. -/
def loadIncluded (p : Parser) (load : SourceId → Parsing Template) (stack : List SourceId)
    (d : Draft) (path : Text) (pos : Nat) : Parsing Template := do
  match ← p.locate path with
  | none => throw (d.error (.invalidIncludePath path) pos)
  | some id =>
    if stack.contains id then
      throw (d.error (.includeCycle ((stack ++ [id]).map SourceId.text)) pos)
    load id

/-- Loads a source on top of a stack of includes; so many loads may be nested. -/
def loadId (p : Parser) : Nat → List SourceId → SourceId → Parsing Template
  | 0, _, _ => throw .endless
  | depth + 1, stack, id =>
    p.cached id do
      let source ← p.readText id
      let stack := stack ++ [id]
      p.parseWith (p.loadIncluded (loadId p depth stack) stack) (some id) source

/-- How many loads may be nested. -/
def depth (p : Parser) : Nat := p.resolver.reach + 1

/-- What an include leads to in a source that is not itself being loaded. -/
def loadFromTop (p : Parser) : Draft → Text → Nat → Parsing Template :=
  p.loadIncluded (p.loadId p.depth []) []

/-- Parses a text as an anonymous template. -/
def parseText (p : Parser) (source : Text) : Parsing Template :=
  p.parseWith p.loadFromTop none source

/-- Parses a text as the content of a source. -/
def parseSource (p : Parser) (id : SourceId) (source : Text) : Parsing Template :=
  p.parseWith p.loadFromTop (some id) source

/-- Loads the template at a path. -/
def load (p : Parser) (path : Text) : Parsing Template := do
  match ← p.locate path with
  | none => throw (.resolve (.notFound path))
  | some id => p.loadId p.depth [] id

end Parser

/-- A bench with a new cache. -/
def Bench.ofCapacity (capacity : Nat) : Bench := (.ofCapacity capacity, 1)

end Stencil
