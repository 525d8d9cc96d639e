import EgressPolicy.Outbound.Descriptor

/-!
Outbound targets: what the proxy engine is given.

A target is built from a descriptor with a tag and a protocol that the engine has. Its definition is
the description with the protocol in small letters, and nothing else changes.
-/

namespace EgressPolicy.Outbound

/-- The protocols that the engine can build an outbound for. -/
def supportedProtocols : List String :=
  ["freedom", "blackhole", "dns", "vmess", "vless", "trojan", "shadowsocks", "socks", "http",
   "wireguard", "hysteria", "loopback"]

/-- An outbound for the engine. -/
structure Target where
  /-- The name that rules refer to. -/
  tag : String
  /-- The JSON object that the engine reads, with the tag and the protocol in it. -/
  definition : Json
  deriving DecidableEq

namespace Descriptor

/-- A descriptor whose protocol the engine has, in any mixture of ASCII capitals. -/
def checkProtocol (d : Descriptor) : Except RegistrationError Unit :=
  if Text.lowerCase d.protocol ∈ supportedProtocols then .ok ()
  else .error (.unsupportedProtocol d.tag d.protocol)

/-- The definition of a descriptor. The tag and the protocol of the descriptor win over members of
the same name that it carries along. -/
def definition (d : Descriptor) : Json :=
  .object
    (Json.Members.insert "protocol" (.string (Text.lowerCase d.protocol))
      (Json.Members.insert "tag" (.string d.tag) d.extra))

end Descriptor

namespace Target

def build (d : Descriptor) : Except RegistrationError Target := do
  d.checkTag
  d.checkProtocol
  return ⟨d.tag, d.definition⟩

def protocol? (t : Target) : Option String :=
  (t.definition.get? "protocol").bind Json.asString?

/-- The tag of the outbound that connects directly. -/
def directTag : String := "direct"

/-- The tag of the outbound that drops everything. -/
def blockTag : String := "block"

/-- The tag of the outbound that answers name queries. -/
def dnsTag : String := "dns_out"

/-- A target with a tag, a protocol and empty settings. -/
def plain (tag protocol : String) : Target :=
  ⟨tag, .object [("protocol", .string protocol), ("settings", .object []), ("tag", .string tag)]⟩

/-- The targets that every engine has, in the order in which they are seeded. -/
def builtins : List Target :=
  [plain directTag "freedom", plain blockTag "blackhole", plain dnsTag "dns"]

end Target

end EgressPolicy.Outbound
