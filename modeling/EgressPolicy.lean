import EgressPolicy.Address
import EgressPolicy.Engine.Session
import EgressPolicy.Node.Reader
import EgressPolicy.Proofs.Json.Grammar
import EgressPolicy.Proofs.Json.ReaderTheorems
import EgressPolicy.Proofs.Json.ShapeTheorems
import EgressPolicy.Proofs.Json.MembersTheorems
import EgressPolicy.Proofs.Json.TreeTheorems
import EgressPolicy.Proofs.Json.DenotationTheorems
import EgressPolicy.Proofs.Json.TextTheorems
import EgressPolicy.Proofs.Json.FieldOrderTheorems
import EgressPolicy.Proofs.Json.SpellingTheorems
import EgressPolicy.Proofs.Node.SpellingTheorems
import EgressPolicy.Proofs.Directive.PortTheorems
import EgressPolicy.Proofs.Outbound.ConsistencyTheorems
import EgressPolicy.Proofs.Outbound.ValueTheorems
import EgressPolicy.Proofs.Override.PolicyTheorems
import EgressPolicy.Proofs.Dns.DocumentTheorems
import EgressPolicy.Proofs.Dns.ValueTheorems
import EgressPolicy.Proofs.Dns.AdoptionTheorems
import EgressPolicy.Proofs.Dns.FixedPointTheorems
import EgressPolicy.Proofs.Routing.ReachableTheorems
import EgressPolicy.Proofs.Routing.AppendOnlyTheorems
import EgressPolicy.Proofs.Routing.NeighbourTheorems
import EgressPolicy.Proofs.Routing.DefinitionTheorems
import EgressPolicy.Proofs.Routing.ValueTheorems
import EgressPolicy.Proofs.Routing.ReimportTheorems
import EgressPolicy.Proofs.Routing.SelectionTheorems
import EgressPolicy.Proofs.Engine.FaultIsolation
import EgressPolicy.Proofs.Engine.Noninterference
import EgressPolicy.Proofs.Engine.SessionTheorems
import EgressPolicy.Proofs.Engine.SerializationTheorems
import EgressPolicy.Proofs.Directive.LayoutTheorems
import EgressPolicy.Proofs.Directive.NormalFormTheorems
import EgressPolicy.Proofs.Override.LegacyTheorems
import EgressPolicy.Proofs.Routing.LegacyTheorems
import EgressPolicy.Proofs.Override.SpellingTheorems
import EgressPolicy.Proofs.Engine.BatchVerdictTheorems
import EgressPolicy.Proofs.Address.RangeTheorems
import EgressPolicy.Proofs.SettingsTheorems
