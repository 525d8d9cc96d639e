import EgressPolicy.Directive.Ports
import EgressPolicy.Node.Basic
import EgressPolicy.Outbound.Descriptor

/-!
Directives: routes whose parts have been checked.

`Directive.ofRoute` reads a route. Patterns are trimmed and the blank ones dropped, the value is
trimmed, and each action says what it needs: patterns, a port list, a name server, an outbound. An
action that is not known is no error, only nothing to do.
-/

namespace EgressPolicy

inductive Action where
  | dns
  | block
  | blockIp
  | blockPort
  | protocol
  | route
  | routeIp
  | defaultOut
  deriving DecidableEq, Repr

namespace Action

def name : Action → String
  | dns => "dns"
  | block => "block"
  | blockIp => "block_ip"
  | blockPort => "block_port"
  | protocol => "protocol"
  | route => "route"
  | routeIp => "route_ip"
  | defaultOut => "default_out"

def all : List Action :=
  [dns, block, blockIp, blockPort, protocol, route, routeIp, defaultOut]

def ofName? (name : String) : Option Action :=
  all.find? (·.name == name)

end Action

/-- A checked directive, with what its action needs and no more. -/
inductive Directive where
  /-- Ask a name server for some domains. -/
  | dns (server : String) (domains : List String)
  /-- Drop what goes to some domains. -/
  | block (domains : List String)
  /-- Drop what goes to some addresses. -/
  | blockIp (ips : List String)
  /-- Drop what goes to some ports, separated by commas. -/
  | blockPort (ports : String)
  /-- Drop what speaks some protocols. -/
  | protocol (protocols : List String)
  /-- Send what goes to some domains through an outbound. -/
  | route (domains : List String) (outbound : Outbound.Descriptor)
  /-- Send what goes to some addresses through an outbound. -/
  | routeIp (ips : List String) (outbound : Outbound.Descriptor)
  /-- Send everything else through an outbound. -/
  | defaultOut (outbound : Outbound.Descriptor)
  deriving DecidableEq

/-- Why a route is no directive. -/
inductive DirectiveError where
  | missingValue (action : Action)
  | emptyMatch (action : Action)
  | invalidPort (item : String)
  | outbound (error : Outbound.RegistrationError)
  deriving DecidableEq, Repr

/-- The report of an error; an outbound reports for itself. -/
def DirectiveError.message : DirectiveError → Option String
  | missingValue action => some ("action '" ++ action.name ++ "' requires an action_value")
  | emptyMatch action =>
    some ("action '" ++ action.name ++ "' requires at least one match pattern")
  | invalidPort item => some ("invalid port or port range: '" ++ item ++ "'")
  | outbound _ => none

namespace Route

/-- The patterns of a route, trimmed, without the blank ones. -/
def cleanPatterns (r : Route) : List String :=
  (r.patterns.map Text.trim).filter (· ≠ "")

/-- The clean patterns of a route with an action that needs some. -/
def requirePatterns (r : Route) (action : Action) : Except DirectiveError (List String) :=
  if r.cleanPatterns = [] then .error (.emptyMatch action) else .ok r.cleanPatterns

/-- The trimmed value of a route with an action that needs one. -/
def requireValue (r : Route) (action : Action) : Except DirectiveError String :=
  match r.value with
  | none => .error (.missingValue action)
  | some value =>
    if Text.trim value = "" then .error (.missingValue action) else .ok (Text.trim value)

def requireOutbound (r : Route) (action : Action) : Except DirectiveError Outbound.Descriptor := do
  let value ← r.requireValue action
  (Outbound.Descriptor.ofText value).mapError .outbound

/-- The port list of a route: the first item that is not valid is reported, and after that that
there are no items. -/
def requirePorts (r : Route) : Except DirectiveError String := do
  let patterns ← r.requirePatterns .blockPort
  let items := Ports.items patterns
  match items.find? fun item => !Ports.isValid item with
  | some item => .error (.invalidPort (String.ofList item))
  | none => if items = [] then .error (.emptyMatch .blockPort) else .ok (Ports.text items)

end Route

namespace Directive

/-- Checks a route for an action. Patterns are checked before the value, and the value before the
outbound in it. -/
def ofAction (r : Route) : Action → Except DirectiveError Directive
  | .dns => do return .dns (← r.requireValue .dns) r.cleanPatterns
  | .block => do return .block (← r.requirePatterns .block)
  | .blockIp => do return .blockIp (← r.requirePatterns .blockIp)
  | .blockPort => do return .blockPort (← r.requirePorts)
  | .protocol => do return .protocol (← r.requirePatterns .protocol)
  | .route => do
    let domains ← r.requirePatterns .route
    return .route domains (← r.requireOutbound .route)
  | .routeIp => do
    let ips ← r.requirePatterns .routeIp
    return .routeIp ips (← r.requireOutbound .routeIp)
  | .defaultOut => do return .defaultOut (← r.requireOutbound .defaultOut)

/-- The directive of a route; none where the action is not known. -/
def ofRoute (r : Route) : Except DirectiveError (Option Directive) :=
  match Action.ofName? r.action with
  | none => .ok none
  | some action => (ofAction r action).map some

def action : Directive → Action
  | dns .. => .dns
  | block .. => .block
  | blockIp .. => .blockIp
  | blockPort .. => .blockPort
  | protocol .. => .protocol
  | route .. => .route
  | routeIp .. => .routeIp
  | defaultOut .. => .defaultOut

/-- The outbound that a directive sends traffic through. -/
def outbound? : Directive → Option Outbound.Descriptor
  | route _ outbound | routeIp _ outbound | defaultOut outbound => some outbound
  | dns .. | block .. | blockIp .. | blockPort .. | protocol .. => none

/-- The route of a directive in its plainest form: the checked patterns and the checked value, and
no number. -/
def toRoute (d : Directive) : Route :=
  let patterns : List String :=
    match d with
    | dns _ domains | block domains | route domains _ => domains
    | blockIp ips | routeIp ips _ => ips
    | blockPort ports => [ports]
    | protocol protocols => protocols
    | defaultOut _ => []
  let value : Option String :=
    match d with
    | dns server _ => some server
    | route _ outbound | routeIp _ outbound | defaultOut outbound => some outbound.toJson.text
    | block _ | blockIp _ | blockPort _ | protocol _ => none
  ⟨none, d.action.name, patterns, value⟩

end Directive

end EgressPolicy
