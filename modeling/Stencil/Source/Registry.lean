import Stencil.Source.FileTree
import Stencil.Source.Resolver

/-!
# Registries of sources

**The registry** (`Registry`) holds inline sources by name, and directories to search.

**Short names.** An inline source whose name has one of the extensions is also found without it.
Of several that share a short name, the one with the better extension is found, whatever the
order in which they came; the latest of equals.

**The search.** An inline source first, by its full name or its short one. Then, for a path that
is confined, each directory in turn: the path as it stands, and with each extension added.
-/

namespace Stencil

/-- Inline sources, the names they have without an extension, and directories. -/
structure Registry where
  inline : Table Text Text
  aliases : Table Text Text
  dirs : List Text

namespace Registry

def empty : Registry := ⟨[], [], []⟩

/-- The store of inline sources. -/
def inlineOrigin : Text := ['i', 'n', 'l', 'i', 'n', 'e']

/-- The store of files. -/
def fileOrigin : Text := ['f', 'i', 'l', 'e']

/-- Records the short name of a source, unless a better extension has it already. -/
def addAlias (aliases : Table Text Text) (name : Text) : Table Text Text :=
  let base := Path.stripExtension Path.extensions name
  if base = name then aliases
  else match aliases.get? base with
    | some other =>
      if Path.priority other < Path.priority name then aliases else aliases.set base name
    | none => aliases.set base name

/-- Adds an inline source, in place of one of the same name. -/
def addInline (r : Registry) (name source : Text) : Registry :=
  { r with inline := r.inline.set name source, aliases := addAlias r.aliases name }

/-- Adds several inline sources in order. -/
def addAll (r : Registry) (entries : List (Text × Text)) : Registry :=
  entries.foldl (fun r (name, source) => r.addInline name source) r

/-- Adds a directory, which must exist. -/
def addDir (r : Registry) (files : FileTree) (path : Text) : Except ResolveError Registry :=
  match files.find? path with
  | some .directory => .ok { r with dirs := r.dirs ++ [path] }
  | some (.file _) => .error (.fault path .notADirectory)
  | none => .error (.fault path .missing)

/-- Adds several directories, up to the first that cannot be used. -/
def addDirs (r : Registry) (files : FileTree) (paths : List Text) : Except ResolveError Registry :=
  paths.foldlM (fun r path => r.addDir files path) r

/-- The names of the inline sources, sorted. -/
def inlineNames (r : Registry) : List Text := r.inline.keys.mergeSort Text.inOrder

def locateInline (r : Registry) (path : Text) : Option SourceId :=
  if r.inline.has path then some ⟨inlineOrigin, path⟩
  else (r.aliases.get? path).map fun name => ⟨inlineOrigin, name⟩

/-- The paths under which a directory may hold a template, best first. -/
def candidates (dir path : Text) : List Text :=
  Path.join dir path :: Path.extensions.map fun e => Path.join dir (path ++ e)

def locateFile (r : Registry) (files : FileTree) (path : Text) : Option SourceId :=
  if Path.isConfined path then
    ((r.dirs.flatMap fun dir => candidates dir path).find? files.isFile).map fun p =>
      ⟨fileOrigin, p⟩
  else none

/-- The bytes of a file. -/
def fileBytes (files : FileTree) (path : Text) : Except ResolveError Bytes :=
  match files.find? path with
  | some (.file content) => .ok content
  | some .directory => .error (.fault path .isADirectory)
  | none => .error (.fault path .missing)

def read (r : Registry) (files : FileTree) (id : SourceId) : Except ResolveError Bytes :=
  if id.origin = inlineOrigin then
    match r.inline.get? id.path with
    | some source => .ok source.toBytes
    | none => .error (.notAvailable id.text)
  else if id.origin = fileOrigin then fileBytes files id.path
  else .error (.notAvailable id.text)

/-- How many bytes all inline sources have together. -/
def size (r : Registry) : Nat :=
  r.inline.foldr (fun (_, source) n => source.toBytes.length + n) 0

/-- The registry as a resolver, over the files as they are now. A source in a chain of includes
is the first one or is named by a tag in another source, and every tag has a character. -/
def resolver (r : Registry) (files : FileTree) : Resolver where
  locate := fun path => .ok ((r.locateInline path).or (r.locateFile files path))
  read := r.read files
  reach := r.size + files.size + 1

end Registry

end Stencil
