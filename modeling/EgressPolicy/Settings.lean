import EgressPolicy.File
import EgressPolicy.Routing.Options
import EgressPolicy.Yaml.Node

/-!
The settings of the compiler.

Settings are a YAML mapping in which every key has a default and unknown keys are skipped. A text is
whatever scalar is written there, even one that looks like a number; a truth value is a plain `true`
or `false` with a capital first letter or in capitals if one likes. A file that is missing gives the
defaults, but a file that cannot be used is an error.
-/

namespace EgressPolicy

structure Settings where
  /-- Where the operator's DNS document is. -/
  dnsPath : String := "/etc/v2node/dns.json"
  /-- Where the operator's overrides for routing are. -/
  routePath : String := "/etc/v2node/route.json"
  /-- Whether the older schema of the block list counts. -/
  legacy : Bool := false
  /-- The source that block rules reject. -/
  source : String := Routing.defaultSource
  /-- The name server where there is no DNS document. -/
  fallbackDns : String := "localhost"
  deriving DecidableEq, Repr

namespace Settings

/-- How routing tables are compiled with these settings. -/
def routingOptions (s : Settings) : Routing.Options :=
  ⟨s.source, s.legacy⟩

/-- Settings of which the entries up to some place have been read. -/
structure Draft where
  dnsPath : Option String := none
  routePath : Option String := none
  legacy : Option Bool := none
  source : Option String := none
  fallbackDns : Option String := none

def text? : Yaml.Node → Option String
  | .scalar _ text => some text
  | _ => none

/-- The truth value of a plain scalar. -/
def bool? : Yaml.Node → Option Bool
  | .scalar true text =>
    if text ∈ ["true", "True", "TRUE"] then some true
    else if text ∈ ["false", "False", "FALSE"] then some false
    else none
  | _ => none

/-- The value of a key that has not been given before. -/
def given? {α : Type} (before : Option α) (read : Yaml.Node → Option α) (node : Yaml.Node) :
    Option (Option α) :=
  match before with
  | some _ => none
  | none => (read node).map some

def Draft.add? (draft : Draft) (entry : Yaml.Node × Yaml.Node) : Option Draft := do
  let key ← text? entry.1
  let value := entry.2
  if key = "dns_override_path" then
    return { draft with dnsPath := ← given? draft.dnsPath text? value }
  else if key = "route_override_path" then
    return { draft with routePath := ← given? draft.routePath text? value }
  else if key = "legacy_block_matching" then
    return { draft with legacy := ← given? draft.legacy bool? value }
  else if key = "geo_source" then
    return { draft with source := ← given? draft.source text? value }
  else if key = "fallback_dns" then
    return { draft with fallbackDns := ← given? draft.fallbackDns text? value }
  else return draft

/-- The settings of a draft; what is not given has its default. -/
def Draft.finish (draft : Draft) : Settings :=
  let defaults : Settings := {}
  { dnsPath := draft.dnsPath.getD defaults.dnsPath
    routePath := draft.routePath.getD defaults.routePath
    legacy := draft.legacy.getD defaults.legacy
    source := draft.source.getD defaults.source
    fallbackDns := draft.fallbackDns.getD defaults.fallbackDns }

/-- The settings of a node. A scalar that is left out is an empty mapping. -/
def ofNode? : Yaml.Node → Option Settings
  | .mapping entries => (entries.foldlM Draft.add? {}).map Draft.finish
  | .scalar true "" => some {}
  | _ => none

/-- Reads the text of the settings. A text without a document gives the defaults; why a text is
refused is not told. -/
def ofText? (s : String) : Option Settings :=
  match Yaml.Node.ofText? s with
  | some (some node) => ofNode? node
  | some none => some {}
  | none => none

def ofFile (file : File) : Except (FileError Unit) Settings := do
  let settings ← file.load fun s =>
    match ofText? s with
    | some settings => .ok settings
    | none => .error ()
  return settings.getD {}

end Settings

end EgressPolicy
