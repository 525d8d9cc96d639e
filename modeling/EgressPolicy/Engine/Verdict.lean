import EgressPolicy.Dns.Policy
import EgressPolicy.Outbound.Registry
import EgressPolicy.Routing.Table

/-!
The engine's last look at a configuration.

Every name server needs an address, every rule an outbound that is there and something to match. The
first fault is reported by its place in the list.
-/

namespace EgressPolicy.Engine

inductive Rejection where
  /-- The address of a name server is blank. -/
  | emptyServerAddress (index : Nat)
  /-- A rule names an outbound that is not there. -/
  | unknownOutbound (index : Nat) (tag : String)
  /-- A rule has neither a matcher nor transports. -/
  | ruleWithoutCondition (index : Nat)
  deriving DecidableEq, Repr

def Rejection.message : Rejection → String
  | emptyServerAddress index =>
    "DNS server #" ++ Text.Decimal.text index ++ " has an empty address"
  | unknownOutbound index tag =>
    "routing rule #" ++ Text.Decimal.text index ++ " targets unknown outbound '" ++ tag ++ "'"
  | ruleWithoutCondition index =>
    "routing rule #" ++ Text.Decimal.text index ++ " has no match condition"

/-- Looks at the members of a list in order, from a place on, and reports the first fault. -/
def checkEach {α : Type} (fault? : Nat → α → Option Rejection) :
    Nat → List α → Except Rejection Unit
  | _, [] => .ok ()
  | index, a :: rest =>
    match fault? index a with
    | some fault => .error fault
    | none => checkEach fault? (index + 1) rest

def serverFault? (index : Nat) (s : Dns.Server) : Option Rejection :=
  if Text.isBlankText s.address then some (.emptyServerAddress index) else none

/-- The fault of a rule; an outbound that is not there is noticed first. -/
def ruleFault? (registry : Outbound.Registry) (index : Nat) (r : Routing.Rule) :
    Option Rejection :=
  if registry.contains r.outboundTag then
    if r.matcher = none ∧ r.network = none then some (.ruleWithoutCondition index) else none
  else some (.unknownOutbound index r.outboundTag)

def checkDns (p : Dns.Policy) : Except Rejection Unit :=
  checkEach serverFault? 0 p.servers

def checkRouting (t : Routing.Table) (registry : Outbound.Registry) : Except Rejection Unit :=
  checkEach (ruleFault? registry) 0 t.rules

end EgressPolicy.Engine
