import EgressPolicy.Text.Vocabulary

/-!
Query strategies: the address families that the engine asks name servers for.
-/

namespace EgressPolicy.Dns

/-- The address families of a query. -/
inductive QueryStrategy where
  | useIp
  | useIpv4
  | useIpv6
  | useIpv4v6
  deriving DecidableEq, Repr

namespace QueryStrategy

def name : QueryStrategy → String
  | useIp => "UseIP"
  | useIpv4 => "UseIPv4"
  | useIpv6 => "UseIPv6"
  | useIpv4v6 => "UseIPv4v6"

/-- The strategy of a host that nobody chose one for: both families where the host has a public IPv6
address, and IPv4 alone elsewhere. -/
def ofHost (hasPublicIpv6 : Bool) : QueryStrategy :=
  if hasPublicIpv6 then useIpv4v6 else useIpv4

def ofText (s : String) : Except Text.UnknownWord QueryStrategy :=
  let word := Text.canonical s
  if word = "useip" then .ok useIp
  else if word = "useipv4" then .ok useIpv4
  else if word = "useipv6" then .ok useIpv6
  else if word = "useipv4v6" then .ok useIpv4v6
  else .error ⟨"query strategy", s⟩

end QueryStrategy

end EgressPolicy.Dns
