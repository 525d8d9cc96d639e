import EgressPolicy.Engine.Compile

/-!
Sessions: compilations over time.

Files change between compilations and nothing else is remembered. Each compilation reads the files
as they are then.
-/

namespace EgressPolicy.Engine

inductive Event where
  /-- The DNS document is replaced, or deleted by the absent file. -/
  | dnsFile (file : File)
  /-- The overrides for routing are replaced, or deleted by the absent file. -/
  | routeFile (file : File)
  /-- A list of nodes is compiled. -/
  | nodes (nodes : List Node)

def Host.after (host : Host) : Event → Host
  | .dnsFile file => { host with dnsFile := file }
  | .routeFile file => { host with routeFile := file }
  | .nodes _ => host

/-- What an event answers: compilations have a result and other events have none. -/
def Host.answer (settings : Settings) (host : Host) : Event → Option (Except Rejection Config)
  | .nodes nodes => some (compile settings host nodes)
  | .dnsFile _ | .routeFile _ => none

/-- The answers of a session, one for each event. -/
def session (settings : Settings) : Host → List Event → List (Option (Except Rejection Config))
  | _, [] => []
  | host, event :: rest =>
    host.answer settings event :: session settings (host.after event) rest

end EgressPolicy.Engine
