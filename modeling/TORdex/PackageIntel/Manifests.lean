import TORdex.Core.Primitives
import TORdex.Fabric.Crawler

/-!
# Manifests

What the manifest of a package says, and how a `Cargo.toml` is read.  The standard library's lower case is a
parameter.
-/

namespace TORdex.PackageIntel

open Crawler (Text cut startsWith endsWith)

/-- Supported package ecosystems. -/
inductive Ecosystem where
  | cargo | npm | pyPI | nuGet | go | composer | maven | gradle | apt | pacman | docker | oci
  deriving DecidableEq, Repr

/-- The name of an ecosystem. -/
def Ecosystem.name : Ecosystem → String
  | .cargo => "cargo"
  | .npm => "npm"
  | .pyPI => "pypi"
  | .nuGet => "nuget"
  | .go => "go"
  | .composer => "composer"
  | .maven => "maven"
  | .gradle => "gradle"
  | .apt => "apt"
  | .pacman => "pacman"
  | .docker => "docker"
  | .oci => "oci"

/-- What a dependency is for. -/
inductive DependencyKind where
  | runtime | dev | build | optional | peer
  deriving DecidableEq, Repr

/-- A dependency in a manifest. -/
structure ParsedDependency where
  name : String
  constraint : Option String
  kind : DependencyKind
  deriving DecidableEq, Repr

/-- Result of parsing a manifest file. -/
structure ParsedManifest where
  ecosystem : Ecosystem
  packageName : String
  version : Option String
  dependencies : List ParsedDependency
  deriving DecidableEq, Repr

/-- A parser of manifests, on a path and a content. -/
structure ManifestParser where
  canParse : String → String → Bool
  parse : String → String → Option ParsedManifest

/-! ## Cargo -/

/-- `trim_matches('"')`. -/
def trimQuotes (s : Text) : Text := (s.dropWhile (· = '"')).rdropWhile (· = '"')

/-- `name = "version"` or `name = { version = "...", ... }`; another value says nothing about it. -/
def parseTomlDep (line : Text) : Option ParsedDependency := do
  let (before, after) ← cut " = ".toList line
  let name := String.ofList (trimText before)
  let value := trimText after
  if startsWith value "\"" then
    return ⟨name, some (String.ofList (trimQuotes value)), .runtime⟩
  else if startsWith value "\x7b" then
    let constraint := do
      let (_, afterVer) ← cut "version = \"".toList value
      let (constraint, _) ← cut ['"'] afterVer
      return String.ofList constraint
    return ⟨name, constraint, .runtime⟩
  else
    return ⟨name, none, .runtime⟩

/-- What the lines so far have said, and the section that the next one is in. -/
structure CargoScan where
  packageName : String
  version : Option String
  dependencies : List ParsedDependency
  inSection : String

/-- Add a dependency, if there is one. -/
def CargoScan.push (s : CargoScan) (dep : Option ParsedDependency) : CargoScan :=
  { s with dependencies := s.dependencies ++ dep.toList }

/-- Read a line. -/
def CargoScan.line (s : CargoScan) (line : Text) : CargoScan :=
  let trimmed := trimText line
  if startsWith trimmed "[" && endsWith trimmed "]" then
    { s with inSection := String.ofList (trimmed.drop 1).dropLast }
  else if startsWith trimmed "#" || trimmed.isEmpty then s
  else
    match s.inSection with
    | "package" =>
      match trimmed.dropPrefix? "name = ".toList with
      | some val => { s with packageName := String.ofList (trimQuotes val) }
      | none =>
        match trimmed.dropPrefix? "version = ".toList with
        | some val => { s with version := some (String.ofList (trimQuotes val)) }
        | none => s
    | "dependencies" => s.push (parseTomlDep trimmed)
    | "dev-dependencies" => s.push ((parseTomlDep trimmed).map fun dep => { dep with kind := .dev })
    | "build-dependencies" => s.push ((parseTomlDep trimmed).map fun dep => { dep with kind := .build })
    | _ => s

/-- Lines are trimmed, so a carriage return at the end of one and an empty last one make no difference. -/
def cargoParse (content : String) : Option ParsedManifest :=
  let s := (content.toList.splitOn '\n').foldl CargoScan.line ⟨"", none, [], ""⟩
  if s.packageName = "" then none else some ⟨.cargo, s.packageName, s.version, s.dependencies⟩

/-- The parser of `Cargo.toml`. -/
def cargoParser (toLowercase : String → String) : ManifestParser where
  canParse path _ := endsWith (toLowercase path).toList "cargo.toml"
  parse _ content := cargoParse content

end TORdex.PackageIntel
