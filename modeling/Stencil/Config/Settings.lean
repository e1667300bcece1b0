import Stencil.Yaml.Document
import Stencil.Decimal.Literal
import Stencil.Escape
import Stencil.Markers
import Stencil.Source.FileTree
import Stencil.Source.Resolver

/-!
# Settings

What an engine is built from that is plain data. Every setting has a default, and a configuration
file lists only what it changes. An unknown or repeated key, or a value of the wrong type, makes
the whole file unusable. The markers are not checked here but when the engine is built.

Template directories in a file are relative to the directory that the file lies in.
-/

namespace Stencil

/-- The plain data of an engine. -/
structure Settings where
  markers : Markers
  capacity : Nat
  kind : EscapeKind
  dirs : List Text
  deriving DecidableEq, Repr

/-- Why a configuration cannot be used. -/
inductive ConfigError where
  | malformed
  | unreadable (path : Text) (fault : FileFault)
  deriving DecidableEq, Repr

namespace Settings

def default : Settings := ⟨.standard, 128, .html, []⟩

/-! ## Values -/

/-- The digits of a number in a base. -/
def readBase? (base : Nat) : Text → Option Nat
  | [] => none
  | t => t.foldlM (fun n c => ((Text.hexDigit? c).filter (· < base)).map (n * base + ·)) 0

/-- Digits only, with a zero in front: a text, and not a number. -/
def isPadded (t : Text) : Bool :=
  let digits := match t with
    | '+' :: r | '-' :: r => r
    | r => r
  match digits with
  | '0' :: c :: r => (c :: r).all fun c => (Text.digit? c).isSome
  | _ => false

/-- A natural number below `2 ^ 64`: decimal without padding, or with the letter of its base. -/
def readCapacity? (t : Text) : Option Nat :=
  let r := match t with
    | '+' :: r => r
    | r => r
  let n? := match r with
    | '0' :: 'x' :: ds => readBase? 16 ds
    | '0' :: 'o' :: ds => readBase? 8 ds
    | '0' :: 'b' :: ds => readBase? 2 ds
    | ds => if isPadded t then none else readBase? 10 ds
  n?.filter (· < UInt64.size)

/-- The escape kind of a name in a configuration. -/
def readKind? (t : Text) : Option EscapeKind :=
  if t = "unspecified".toList then some .unspecified
  else if t = "none".toList then some .text
  else EscapeKind.ofToken? t

/-- The text of a scalar. -/
def scalar? : Yaml → Option Text
  | .scalar t _ => some t
  | _ => none

/-- The entries of a map with different keys; an empty scalar is a map without entries. -/
def entries? : Yaml → Option (Table Text Yaml)
  | .map es =>
    es.foldlM (fun (acc : Table Text Yaml) (k, v) =>
      (scalar? k).bind fun k => if acc.has k then none else some (acc.set k v)) []
  | .scalar [] true => some []
  | _ => none

/-- The scalars of a list; an empty scalar is a list without elements. -/
def scalars? : Yaml → Option (List Text)
  | .list xs => xs.mapM scalar?
  | .scalar [] true => some []
  | _ => none

/-! ## Documents -/

/-- Changes one marker. -/
def setMarker (m : Markers) (entry : Text × Yaml) : Option Markers :=
  (MarkerRole.all.find? fun role => role.name.toList = entry.1).bind fun role =>
    (scalar? entry.2).map fun t => m.set role t

/-- Changes one setting. -/
def setEntry (s : Settings) (entry : Text × Yaml) : Option Settings :=
  let (key, value) := entry
  if key = "syntax".toList then
    (entries? value).bind fun es =>
      (es.foldlM setMarker s.markers).map fun markers => { s with markers }
  else if key = "cache_capacity".toList then
    match value with
    | .scalar t true => (readCapacity? t).map fun capacity => { s with capacity }
    | _ => none
  else if key = "default_escape".toList then
    ((scalar? value).bind readKind?).map fun kind => { s with kind }
  else if key = "template_dirs".toList then
    (scalars? value).map fun dirs => { s with dirs }
  else none

/-- The settings in a YAML document. -/
def ofYaml (t : Text) : Except ConfigError Settings :=
  if t.all Text.isBlank then .ok default
  else
    match ((Yaml.read? t).bind entries?).bind fun es => es.foldlM setEntry default with
    | some s => .ok s
    | none => .error .malformed

/-- The settings in a file. -/
def ofFile (files : FileTree) (path : Text) : Except ConfigError Settings :=
  match files.find? path with
  | none => .error (.unreadable path .missing)
  | some .directory => .error (.unreadable path .isADirectory)
  | some (.file content) =>
    match Text.ofBytes? content with
    | none => .error (.unreadable path .notText)
    | some t =>
      (ofYaml t).map fun s =>
        { s with dirs := s.dirs.map (Path.join (Path.parent path)) }

end Settings

end Stencil
