import DeadExports.Options.Basic
import DeadExports.Settings.File

/-!
# The configuration of a scan

Options and settings file together decide which names are exempt and which
suffixes are scanned. Resolving either succeeds and sets exactly these two
fields, or fails and changes nothing. Names from every source are combined; of
the suffix lists the first that is not empty counts.

Exempt names are kept in ascending order without repetitions, so a set of names
has one representation.
-/

namespace DeadExports

/-- Names that the web framework reads by convention from route modules. Nothing
in a project imports them. -/
def frameworkNames : List Text :=
  ["metadata".toList, "viewport".toList, "config".toList, "generateStaticParams".toList]

def sourceSuffixes : List Text :=
  [['.', 't', 's'], ['.', 't', 's', 'x']]

def insertName (name : Text) : List Text → List Text
  | [] => [name]
  | other :: names =>
      if name = other then other :: names
      else if name < other then name :: other :: names
      else other :: insertName name names

/-- The names of a list in ascending order, each once. -/
def nameSet (names : List Text) : List Text :=
  names.foldr insertName []

def dotted (suffix : Text) : Text :=
  if suffix.head? = some '.' then suffix else '.' :: suffix

/-- Options together with what they resolve to. -/
structure Config extends Options where
  exempt : List Text
  suffixes : List Text
  deriving DecidableEq, Repr

namespace Config

def ofOptions (options : Options) : Config :=
  { options with exempt := [], suffixes := [] }

def exemptNames (options : Options) (settings : Settings) : List Text :=
  nameSet (frameworkNames ++ options.allow ++ settings.allow)

def selectedSuffixes (options : Options) (settings : Settings) : List Text :=
  let suffixes :=
    if !options.extensions.isEmpty then options.extensions
    else if !settings.extensions.isEmpty then settings.extensions
    else sourceSuffixes
  suffixes.map dotted

def settingsOf (fs : FileSystem) (options : Options) : Except Settings.Failure Settings :=
  match options.config with
  | none => .ok .empty
  | some path => Settings.ofFile fs path

def resolve (fs : FileSystem) (config : Config) : Except Settings.Failure Config :=
  match settingsOf fs config.toOptions with
  | .error failure => .error failure
  | .ok settings =>
      .ok { config with
        exempt := exemptNames config.toOptions settings
        suffixes := selectedSuffixes config.toOptions settings }

/-- The same on a configuration in place: the settings are read, then the exempt
names are assigned, then the suffixes. A failure leaves what was assigned
before. -/
def resolveInPlace (fs : FileSystem) : EStateM Settings.Failure Config Unit := do
  let config ← get
  let settings ← ofExcept (settingsOf fs config.toOptions)
  modify fun config => { config with exempt := exemptNames config.toOptions settings }
  modify fun config => { config with suffixes := selectedSuffixes config.toOptions settings }

def isExempt (config : Config) (name : Text) : Bool :=
  config.exempt.contains name

end Config

end DeadExports
