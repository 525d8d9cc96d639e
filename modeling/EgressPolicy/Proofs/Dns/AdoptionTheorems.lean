import EgressPolicy.Proofs.Dns.ValueTheorems

/-!
The DNS section, as a function of the document's value.

`IsDocument` says which values are DNS documents, and `adopted` what becomes of one: all of it
stays, apart from servers that are written as their address alone, domains that are none, and the
query strategy, which gets the engine's word. Where there is no document, `synthesized` takes its
place. `toJson_resolve` says that the section for the engine is one or the other, with the name
servers that `panelServerJson?` finds in the routes behind the servers.
-/

namespace EgressPolicy.Dns

open Json Json.Tree

/-! ## Values that are documents -/

def QueryStrategy.all : List QueryStrategy :=
  [useIp, useIpv4, useIpv6, useIpv4v6]

/-- The query strategy that a text names, without regard to blanks around it and to ASCII case. -/
def QueryStrategy.named? (s : String) : Option QueryStrategy :=
  all.find? fun q => q.name.toList.map Char.toLower == (Text.trim s).toList.map Char.toLower

/-- A value that is a server: its address alone, or an object with an address and, if it is there,
a list of domains. -/
inductive IsServer : Json → Prop where
  | address (s : String) : IsServer (.string s)
  | object {ms : Members} {s : String} (haddress : Members.get? ms "address" = some (.string s))
    (hdomains : ∀ v ∈ Members.get? ms "domains", ∃ domains, v = Json.ofStrings domains) :
    IsServer (.object ms)

/-- A value that chooses a query strategy, or none. -/
inductive IsStrategy : Json → Prop where
  | null : IsStrategy .null
  | blank {s : String} (h : Text.trim s = "") : IsStrategy (.string s)
  | named {s : String} {q : QueryStrategy} (h : QueryStrategy.named? s = some q) :
    IsStrategy (.string s)

/-- A value that is a DNS document. -/
inductive IsDocument : Json → Prop where
  | object {ms : Members} {servers : List Json}
    (hservers : Members.get? ms "servers" = some (.array servers))
    (hserver : ∀ v ∈ servers, IsServer v)
    (hstrategy : ∀ v ∈ Members.get? ms "queryStrategy", IsStrategy v) :
    IsDocument (.object ms)

/-- The words in small letters. -/
theorem QueryStrategy.map_all_lower :
    all.map (fun q => String.ofList (q.name.toList.map Char.toLower)) =
      ["useip", "useipv4", "useipv6", "useipv4v6"] := by
  decide +kernel

theorem QueryStrategy.named?_eq (s : String) : named? s = (ofText s).toOption := by
  have hnamed : named? s =
      all.find? fun q => q.name.toList.map Char.toLower == (Text.canonical s).toList := by
    rw [Text.canonical, Text.toList_lowerCase]
    rfl
  rw [hnamed]
  by_cases hword : Text.canonical s ∈ ["useip", "useipv4", "useipv6", "useipv4v6"]
  · simp only [List.mem_cons, List.not_mem_nil, or_false] at hword
    rw [ofText]
    rcases hword with h | h | h | h <;>
      · simp only [h, String.reduceEq, if_true, if_false]
        decide +kernel
  · have hnone : (ofText s).toOption = none := by
      simp only [List.mem_cons, List.not_mem_nil, or_false, not_or] at hword
      simp [ofText, hword, Except.toOption]
    rw [hnone, List.find?_eq_none]
    intro q hq hname
    refine hword ?_
    rw [← map_all_lower]
    refine List.mem_map.mpr ⟨q, hq, ?_⟩
    rw [beq_iff_eq.mp hname, String.ofList_toList]

theorem Document.exists_strategyOfJson?_iff {v : Json} :
    (∃ choice, strategyOfJson? v = some choice) ↔ IsStrategy v := by
  cases v with
  | null => exact ⟨fun _ => .null, fun _ => ⟨none, rfl⟩⟩
  | bool _ | number _ | array _ | object _ =>
    constructor
    · intro h
      cases h with
      | intro _ h => cases h
    · intro h
      cases h
  | string s =>
    rw [strategyOfJson?, ← QueryStrategy.named?_eq]
    cases hb : Text.isBlankText s with
    | true =>
      exact ⟨fun _ => .blank ((Text.isBlankText_iff s).mp hb), fun _ => ⟨none, rfl⟩⟩
    | false =>
      simp only [Bool.false_eq_true, if_false, Option.map_eq_some_iff]
      constructor
      · intro h
        obtain ⟨_, q, hq, -⟩ := h
        exact .named hq
      · intro h
        cases h with
        | blank h =>
          rw [(Text.isBlankText_iff s).mpr h] at hb
          cases hb
        | named h => exact ⟨_, _, h, rfl⟩

/-- A list of texts, as it is written. -/
theorem asListOf?_asString?_eq_some_iff {v : Json} {texts : List String} :
    asListOf? asString? v = some texts ↔ v = Json.ofStrings texts := by
  constructor
  · intro h
    cases v with
    | null | bool _ | number _ | string _ | object _ => cases h
    | array items =>
      have hitems : List.Forall₂ (fun v s => asString? v = some s) items texts :=
        mapM_eq_some_iff.mp h
      have heq : List.Forall₂ (fun v s => v = Json.string s) items texts := by
        refine hitems.imp fun v s hv => ?_
        cases v with
        | string _ => rw [Option.some.inj hv]
        | null | bool _ | number _ | array _ | object _ => cases hv
      rw [← List.forall₂_map_right_iff (f := Json.string), List.forall₂_eq_eq_eq] at heq
      rw [Json.ofStrings, heq]
  · rintro rfl
    exact asListOf?_ofStrings texts

/-- What an object says when it is read as a server. -/
theorem Server.ofJson?_object_eq_some_iff {ms : Members} {s : Server} :
    ofJson? (.object ms) = some s ↔
      Members.get? ms "address" = some (.string s.address) ∧
        (Members.get? ms "domains" = none ∧ s.domains = [] ∨
          Members.get? ms "domains" = some (Json.ofStrings s.domains)) ∧
        s.extra = Members.without names ms := by
  rw [ofJson?, Option.bind_eq_some_iff]
  constructor
  · intro h
    obtain ⟨draft, hdraft, hs⟩ := h
    obtain ⟨a, b, ha, hb, rfl⟩ := Members.pair?_eq_some_iff.mp hdraft
    obtain ⟨address, rfl, rfl⟩ := Option.map_eq_some_iff.mp hs
    obtain ⟨v, hv, haddress⟩ := Members.field?_eq_some_iff.mp ha
    refine ⟨?_, ?_, rfl⟩
    · cases v with
      | string _ => rw [hv, Option.some.inj haddress]
      | null | bool _ | number _ | array _ | object _ => cases haddress
    · cases b with
      | none => exact Or.inl ⟨Members.field?_eq_none_iff.mp hb, rfl⟩
      | some domains =>
        obtain ⟨w, hw, hdomains⟩ := Members.field?_eq_some_iff.mp hb
        rw [asListOf?_asString?_eq_some_iff.mp hdomains] at hw
        exact Or.inr hw
  · intro h
    obtain ⟨haddress, hdomains, hextra⟩ := h
    have ha : Members.field? "address" asString? ms = some (some s.address) :=
      Members.field?_of_get? haddress
    rcases hdomains with ⟨hnone, hempty⟩ | hsome
    · have hb : Members.field? "domains" (asListOf? asString?) ms = some none :=
        Members.field?_eq_none_iff.mpr hnone
      refine ⟨_, Members.pair?_eq_some_iff.mpr ⟨_, _, ha, hb, rfl⟩, ?_⟩
      show some (⟨s.address, [], Members.without names ms⟩ : Server) = some s
      rw [← hempty, ← hextra]
    · have hb : Members.field? "domains" (asListOf? asString?) ms = some (some s.domains) := by
        rw [Members.field?_of_get? hsome, asListOf?_ofStrings]
        rfl
      refine ⟨_, Members.pair?_eq_some_iff.mpr ⟨_, _, ha, hb, rfl⟩, ?_⟩
      show some (⟨s.address, s.domains, Members.without names ms⟩ : Server) = some s
      rw [← hextra]

theorem Server.exists_ofJson?_iff {v : Json} : (∃ s, Server.ofJson? v = some s) ↔ IsServer v := by
  cases v with
  | string s => exact ⟨fun _ => .address s, fun _ => ⟨_, rfl⟩⟩
  | null | bool _ | number _ | array _ =>
    constructor
    · intro h
      cases h with
      | intro _ h => cases h
    · intro h
      cases h
  | object ms =>
    simp only [ofJson?_object_eq_some_iff]
    constructor
    · intro h
      obtain ⟨s, haddress, hdomains, -⟩ := h
      refine .object haddress fun v hv => ?_
      rcases hdomains with ⟨hnone, -⟩ | hsome
      · rw [hnone] at hv
        cases hv
      · rw [hsome] at hv
        exact ⟨s.domains, (Option.some.inj hv).symm⟩
    · intro h
      cases h with
      | @object _ address haddress hdomains =>
        cases hget : Members.get? ms "domains" with
        | none => exact ⟨⟨address, [], _⟩, haddress, Or.inl ⟨rfl, rfl⟩, rfl⟩
        | some v =>
          obtain ⟨domains, rfl⟩ := hdomains v hget
          exact ⟨⟨address, domains, _⟩, haddress, Or.inr rfl, rfl⟩

/-- What an object says when it is read as a document. -/
theorem Document.ofJson?_object_eq_some_iff {ms : Members} {d : Document} :
    ofJson? (.object ms) = some d ↔
      (∃ servers, Members.get? ms "servers" = some (.array servers) ∧
        servers.mapM Server.ofJson? = some d.servers) ∧
      (∃ choice, Members.field? "queryStrategy" strategyOfJson? ms = some choice ∧
        d.strategy = choice.getD none) ∧
      d.extra = Members.without names ms := by
  rw [ofJson?, Option.bind_eq_some_iff]
  constructor
  · intro h
    obtain ⟨draft, hdraft, hd⟩ := h
    obtain ⟨a, b, ha, hb, rfl⟩ := Members.pair?_eq_some_iff.mp hdraft
    obtain ⟨servers, rfl, rfl⟩ := Option.map_eq_some_iff.mp hd
    obtain ⟨v, hv, hservers⟩ := Members.field?_eq_some_iff.mp ha
    cases v with
    | array items => exact ⟨⟨items, hv, hservers⟩, ⟨b, hb, rfl⟩, rfl⟩
    | null | bool _ | number _ | string _ | object _ => cases hservers
  · intro h
    obtain ⟨⟨items, hitems, hservers⟩, ⟨choice, hchoice, hstrategy⟩, hextra⟩ := h
    have ha : Members.field? "servers" (asListOf? Server.ofJson?) ms = some (some d.servers) := by
      rw [Members.field?_of_get? hitems, asListOf?, hservers]
      rfl
    refine ⟨_, Members.pair?_eq_some_iff.mpr ⟨_, _, ha, hchoice, rfl⟩, ?_⟩
    show some (⟨d.servers, choice.getD none, Members.without names ms⟩ : Document) = some d
    rw [← hstrategy, ← hextra]

/-- **Documents** are the values that are read as one. -/
theorem Document.exists_ofJson?_iff {v : Json} : (∃ d, ofJson? v = some d) ↔ IsDocument v := by
  cases v with
  | null | bool _ | number _ | string _ | array _ =>
    constructor
    · intro h
      cases h with
      | intro _ h => cases h
    · intro h
      cases h
  | object ms =>
    simp only [ofJson?_object_eq_some_iff]
    constructor
    · intro h
      obtain ⟨d, ⟨servers, hservers, hread⟩, ⟨choice, hchoice, -⟩, -⟩ := h
      refine .object hservers (fun v hv => ?_) fun v hv => ?_
      · exact Server.exists_ofJson?_iff.mp (exists_mapM_eq_some_iff.mp ⟨_, hread⟩ v hv)
      · rw [Members.field?_of_get? hv] at hchoice
        obtain ⟨q, hq, -⟩ := Option.map_eq_some_iff.mp hchoice
        exact exists_strategyOfJson?_iff.mp ⟨q, hq⟩
    · intro h
      cases h with
      | @object _ servers hservers hserver hstrategy =>
        obtain ⟨read, hread⟩ := exists_mapM_eq_some_iff.mpr fun v hv =>
          Server.exists_ofJson?_iff.mpr (hserver v hv)
        have hchoice : ∃ choice,
            Members.field? "queryStrategy" strategyOfJson? ms = some choice := by
          cases hget : Members.get? ms "queryStrategy" with
          | none => exact ⟨none, Members.field?_eq_none_iff.mpr hget⟩
          | some v =>
            obtain ⟨q, hq⟩ := exists_strategyOfJson?_iff.mpr (hstrategy v hget)
            exact ⟨some q, Members.field?_eq_some_iff.mpr ⟨v, hget, hq⟩⟩
        obtain ⟨choice, hchoice⟩ := hchoice
        exact ⟨⟨read, choice.getD none, _⟩, ⟨servers, hservers, hread⟩, ⟨choice, hchoice, rfl⟩,
          rfl⟩

instance (v : Json) : Decidable (IsDocument v) :=
  decidable_of_iff ((Document.ofJson? v).isSome = true)
    (Option.isSome_iff_exists.trans Document.exists_ofJson?_iff)

/-! ## What becomes of a document -/

/-- A server as it is written for the engine. -/
def writtenServer : Json → Json
  | .string address => .object [("address", .string address)]
  | .object ms => .object (ms.filter fun m => ¬ (m.1 = "domains" ∧ m.2 = .array []))
  | v => v

def hostWord (hasPublicIpv6 : Bool) : String :=
  if hasPublicIpv6 then "UseIPv4v6" else "UseIPv4"

/-- The word for the strategy that a value chooses, or for that of the host. -/
def strategyWord (hasPublicIpv6 : Bool) : Option Json → String
  | some (.string s) =>
    ((QueryStrategy.named? s).map QueryStrategy.name).getD (hostWord hasPublicIpv6)
  | _ => hostWord hasPublicIpv6

/-- The servers of a document as they are written for the engine, before those of the panel. -/
def writtenServers (panel : List Json) : Json → Json
  | .array servers => .array (servers.map writtenServer ++ panel)
  | v => v

/-- A document as it is written for the engine. -/
def adopted (hasPublicIpv6 : Bool) (panel : List Json) : Json → Json
  | .object ms =>
    let word := strategyWord hasPublicIpv6 (Members.get? ms "queryStrategy")
    .object ((Members.insert "queryStrategy" (.string word) ms).map fun m =>
      (m.1, if m.1 = "servers" then writtenServers panel m.2 else m.2))
  | v => v

/-- What is written for the engine where there is no document. -/
def synthesized (fallback : String) (hasPublicIpv6 : Bool) (panel : List Json) : Json :=
  .object
    [("queryStrategy", .string (hostWord hasPublicIpv6)),
     ("servers", .array (.object [("address", .string fallback)] :: panel))]

/-! ## The name servers of the panel -/

/-- The server of an address for some domains, or for all. -/
def panelServer (address : String) (domains : List String) : Json :=
  .object
    (("address", .string address) ::
      if domains = [] then [] else [("domains", Json.ofStrings domains)])

/-- The server that a `dns` route adds: its value is the address, and its patterns are the domains,
all of them trimmed; a blank value adds none, and blank patterns do not count. -/
def panelServerJson? (r : Route) : Option Json :=
  if r.action = "dns" then
    match r.value with
    | some value =>
      if Text.trim value = "" then none
      else some (panelServer (Text.trim value) ((r.patterns.map Text.trim).filter (· ≠ "")))
    | none => none
  else none

/-- The name servers of the panel, in the order of the nodes and of their routes. -/
def panelJson (nodes : List Node) : List Json :=
  nodes.flatMap fun n => n.routes.filterMap panelServerJson?

/-! ## The section for the engine -/

/-- A server is written as its value says. -/
theorem Server.normal_toJson_of_ofJson? {room : Nat} {v : Json} {s : Server}
    (hkept : s.IsKept room) (hv : v.normal = v) (h : ofJson? v = some s) :
    s.toJson.normal = writtenServer v := by
  cases v with
  | null | bool _ | number _ | array _ => cases h
  | string address =>
    obtain rfl := Option.some.inj h
    rfl
  | object ms =>
    have hms := normal_object_eq_self_iff.mp hv
    obtain ⟨haddress, hdomains, hextra⟩ := ofJson?_object_eq_some_iff.mp h
    rw [toJson_eq, writtenServer]
    refine hkept.hasFieldsBefore.normal_object_eq hms.ascending (hms.ascending.filter _) hextra
      (fun key hname => ?_) fun key hname => ?_
    · rw [Members.get?_filter hms.ascending.nodup]
      simp only [names, List.mem_cons, List.not_mem_nil, or_false] at hname
      rcases hname with rfl | rfl
      · rw [haddress]
        rfl
      · rcases hdomains with ⟨hnone, hempty⟩ | hsome
        · rw [hnone, ownMembers, if_pos hempty]
          rfl
        · by_cases hempty : s.domains = []
          · rw [hsome, ownMembers, if_pos hempty, hempty]
            rfl
          · have hne : Json.ofStrings s.domains ≠ .array [] := by
              simpa [Json.ofStrings] using hempty
            rw [hsome, ownMembers, if_neg hempty]
            show some (Json.ofStrings s.domains).normal = _
            rw [normal_ofStrings]
            simp [Option.filter, hne]
    · rw [Members.get?_filter hms.ascending.nodup]
      have hne : key ≠ "domains" := fun he => hname (by rw [he]; decide)
      cases Members.get? ms key <;> simp [Option.filter, hne]

theorem QueryStrategy.named?_of_blank {s : String} (h : Text.trim s = "") : named? s = none := by
  rw [named?, h]
  decide +kernel

theorem name_ofHost (hasPublicIpv6 : Bool) :
    (QueryStrategy.ofHost hasPublicIpv6).name = hostWord hasPublicIpv6 := by
  cases hasPublicIpv6 <;> rfl

/-- The chosen strategy is written as the engine's word. -/
theorem name_strategy_of_field? {ms : Members} {choice : Option (Option QueryStrategy)}
    (h : Members.field? "queryStrategy" Document.strategyOfJson? ms = some choice)
    (hasPublicIpv6 : Bool) :
    ((choice.getD none).getD (QueryStrategy.ofHost hasPublicIpv6)).name =
      strategyWord hasPublicIpv6 (Members.get? ms "queryStrategy") := by
  cases hget : Members.get? ms "queryStrategy" with
  | none =>
    rw [Members.field?, hget] at h
    obtain rfl := Option.some.inj h
    exact name_ofHost hasPublicIpv6
  | some v =>
    rw [Members.field?_of_get? hget] at h
    obtain ⟨chosen, hchosen, rfl⟩ := Option.map_eq_some_iff.mp h
    cases v with
    | bool _ | number _ | array _ | object _ => cases hchosen
    | null =>
      obtain rfl := Option.some.inj hchosen
      exact name_ofHost hasPublicIpv6
    | string s =>
      rw [Document.strategyOfJson?, ← QueryStrategy.named?_eq] at hchosen
      rw [strategyWord]
      split at hchosen
      · rename_i hblank
        obtain rfl := Option.some.inj hchosen
        rw [QueryStrategy.named?_of_blank ((Text.isBlankText_iff s).mp hblank)]
        exact name_ofHost hasPublicIpv6
      · obtain ⟨q, hq, rfl⟩ := Option.map_eq_some_iff.mp hchosen
        rw [hq]
        rfl

/-- A document is written as its value says, with more servers behind its own. -/
theorem Policy.normal_toJson_of_ofJson? {v : Json} {document : Document} {p : Policy}
    {hasPublicIpv6 : Bool} {panel : List Server} (hkept : p.toDocument.IsKept) (hv : v.normal = v)
    (h : Document.ofJson? v = some document)
    (hp : p = { Policy.adopt document (QueryStrategy.ofHost hasPublicIpv6) with
      servers := document.servers ++ panel }) :
    p.toJson.normal = adopted hasPublicIpv6 (panel.map fun s => s.toJson.normal) v := by
  cases v with
  | null | bool _ | number _ | string _ | array _ => cases h
  | object ms =>
    have hms := normal_object_eq_self_iff.mp hv
    obtain ⟨⟨servers, hservers, hread⟩, ⟨choice, hchoice, hstrategy⟩, hextra⟩ :=
      Document.ofJson?_object_eq_some_iff.mp h
    have hword := name_strategy_of_field? hchoice hasPublicIpv6
    have hwritten : document.servers.map (fun s => s.toJson.normal) =
        servers.map writtenServer := by
      have hnormal := normal_array_eq_self_iff.mp (hms.normal_get? hservers)
      refine map_eq_map_of_mapM hread fun v hv s hs hserver => ?_
      have hkeptServer := hkept.server s (by rw [hp]; exact List.mem_append_left _ hs)
      exact Server.normal_toJson_of_ofJson? hkeptServer (hnormal v hv) hserver
    let change (key : String) (v : Json) : Json :=
      if key = "servers" then writtenServers (panel.map fun s => s.toJson.normal) v else v
    have hget := fun key => Members.get?_map change (Members.insert "queryStrategy" (.string
      (strategyWord hasPublicIpv6 (Members.get? ms "queryStrategy"))) ms) key
    simp only [Members.get?_insert] at hget
    subst hp
    rw [Policy.toJson_eq, adopted]
    refine (Policy.hasFieldsBefore hkept).normal_object_eq hms.ascending
      ((hms.ascending.insert _ _).map change) hextra (fun key hname => ?_) fun key hname => ?_
    · rw [hget]
      simp only [Document.names, List.mem_cons, List.not_mem_nil, or_false] at hname
      rcases hname with rfl | rfl
      · rw [if_neg (by decide), hservers]
        show some (Json.array ((document.servers ++ panel).map Server.toJson)).normal =
          some (.array (servers.map writtenServer ++ panel.map fun s => s.toJson.normal))
        rw [normal_array, List.map_map, List.map_append, ← hwritten]
        rfl
      · rw [if_pos rfl, ← hword, ← hstrategy]
        rfl
    · have hserversKey : key ≠ "servers" := fun he => hname (by rw [he]; decide)
      have hstrategyKey : key ≠ "queryStrategy" := fun he => hname (by rw [he]; decide)
      rw [hget, if_neg hstrategyKey]
      cases Members.get? ms key <;> simp [change, hserversKey]

/-! ## The name servers of the panel -/

theorem normal_panelServer (address : String) (domains : List String) :
    (panelServer address domains).normal = panelServer address domains := by
  rw [panelServer, normal_object_eq_self_iff]
  constructor
  · split
    · exact List.pairwise_singleton _ _
    · have hbefore : "address" < "domains" := by decide
      exact List.pairwise_pair.mpr hbefore
  · intro m hm
    rcases List.mem_cons.mp hm with rfl | hm
    · rfl
    · split at hm
      · cases hm
      · obtain rfl := List.mem_singleton.mp hm
        exact normal_ofStrings domains

theorem toJson_panelServer (address : String) (domains : List String) :
    Server.toJson ⟨address, domains, []⟩ = panelServer address domains := by
  rw [Server.toJson, List.append_nil, panelServer]

/-- A route adds a name server when it is a `dns` route with a value. -/
theorem serverOfRoute?_eq (r : Route) :
    Policy.serverOfRoute? r =
      if r.action = "dns" then
        (r.requireValue .dns).toOption.map fun server => ⟨server, r.cleanPatterns, []⟩
      else none := by
  ext s
  have hiff : Policy.serverOfRoute? r = some s ↔ r.action = "dns" ∧ ∃ server,
      r.requireValue .dns = .ok server ∧ ⟨server, r.cleanPatterns, []⟩ = s := by
    rw [serverOfRoute?_eq_some_iff]
    simp only [directive?_eq_some_iff, Directive.IsReadFrom, Directive.action, Action.name,
      Server.ofAddress]
    constructor
    · rintro ⟨server, _, ⟨haction, hvalue, rfl⟩, hs⟩
      exact ⟨haction, server, hvalue, hs.symm⟩
    · rintro ⟨haction, server, hvalue, hs⟩
      exact ⟨server, _, ⟨haction, hvalue, rfl⟩, hs.symm⟩
  rw [hiff]
  split
  · rename_i haction
    simp only [haction, true_and, Option.map_eq_some_iff, toOption_eq_some_iff]
  · rename_i haction
    simp only [haction, false_and, reduceCtorEq]

/-- It is written as the parts of the route say. -/
theorem map_serverOfRoute? (r : Route) :
    (Policy.serverOfRoute? r).map (fun s => s.toJson.normal) = panelServerJson? r := by
  rw [serverOfRoute?_eq, panelServerJson?]
  split
  · rw [Route.requireValue]
    cases r.value with
    | none => rfl
    | some value =>
      show Option.map _ (Option.map _ (Except.toOption (if Text.trim value = "" then _ else _))) =
        if Text.trim value = "" then none else _
      split
      · rfl
      · show some (Server.toJson ⟨Text.trim value, r.cleanPatterns, []⟩).normal = _
        rw [toJson_panelServer, normal_panelServer]
        rfl
  · rfl

theorem map_panelServers (nodes : List Node) :
    (Policy.panelServers nodes).map (fun s => s.toJson.normal) = panelJson nodes := by
  have hroute : ∀ e : String × Route, (Policy.serverOfRoute? e.2).map (fun s => s.toJson.normal) =
      panelServerJson? e.2 := fun e => map_serverOfRoute? e.2
  rw [Policy.panelServers, Node.entries, panelJson, List.map_filterMap]
  simp only [hroute, List.filterMap_flatMap, List.filterMap_map]
  rfl

/-! ## The section for the engine -/

theorem normal_toJson_of_unusable {file : File} (h : file.usable? Document.ofText = none)
    (fallback : String) (hasPublicIpv6 : Bool) (nodes : List Node) :
    (Policy.resolve file fallback hasPublicIpv6 nodes).toJson.normal =
      synthesized fallback hasPublicIpv6 (panelJson nodes) := by
  have hservers : (Json.array ((Server.ofAddress fallback :: Policy.panelServers nodes).map
      Server.toJson)).normal =
        .array (.object [("address", .string fallback)] :: panelJson nodes) := by
    rw [normal_array, List.map_map, List.map_cons, ← map_panelServers]
    rfl
  have hpolicy : Policy.resolve file fallback hasPublicIpv6 nodes =
      ⟨Server.ofAddress fallback :: Policy.panelServers nodes,
        QueryStrategy.ofHost hasPublicIpv6, []⟩ := by
    rw [Policy.resolve, Policy.base, h]
    rfl
  have hbefore : "queryStrategy" < "servers" := by decide
  rw [hpolicy, synthesized, ← name_ofHost, ← hservers, Policy.toJson, normal_object]
  simp only [List.map_cons, List.map_nil, normal, Members.ofList, List.foldl_cons,
    List.foldl_nil, Members.insert, if_pos hbefore]

/-- **The DNS section** is the document that the file holds, as it is written for the engine, or
where it holds none, the fallback server alone; the name servers of the panel follow in either
case. -/
theorem toJson_resolve (file : File) (fallback : String) (hasPublicIpv6 : Bool)
    (nodes : List Node) :
    (∀ v, file.Holds v →
      ((file.usable? Document.ofText).isSome = true ↔ IsDocument v) ∧
      (IsDocument v → (Policy.resolve file fallback hasPublicIpv6 nodes).toJson.normal =
        adopted hasPublicIpv6 (panelJson nodes) v) ∧
      (¬ IsDocument v → (Policy.resolve file fallback hasPublicIpv6 nodes).toJson.normal =
        synthesized fallback hasPublicIpv6 (panelJson nodes))) ∧
    (file = .absent → (Policy.resolve file fallback hasPublicIpv6 nodes).toJson.normal =
      synthesized fallback hasPublicIpv6 (panelJson nodes)) := by
  constructor
  · intro v hv
    have husable := Document.usable?_of_holds hv
    rw [← Document.exists_ofJson?_iff, husable, Option.isSome_iff_exists]
    refine ⟨Iff.rfl, fun hdocument => ?_, fun hnone => ?_⟩
    · obtain ⟨document, hread⟩ := hdocument
      rw [hread] at husable
      rw [← map_panelServers]
      refine Policy.normal_toJson_of_ofJson? (Policy.isKept_resolve _ _ _ _) hv.normal_eq hread ?_
      rw [Policy.resolve, Policy.base, husable]
      rfl
    · refine normal_toJson_of_unusable ?_ fallback hasPublicIpv6 nodes
      rw [husable]
      exact Option.eq_none_iff_forall_ne_some.mpr fun d hd => hnone ⟨d, hd⟩
  · rintro rfl
    exact normal_toJson_of_unusable rfl fallback hasPublicIpv6 nodes

/-- A document with a server in either spelling, no domains and a strategy in capitals. -/
def mixedText : String :=
  "\x7b\"servers\": [\"1.1.1.1\", \x7b\"port\": 53, \"domains\": [], \"address\": \"8.8.8.8\"\x7d],
    \"queryStrategy\": \" USEIPV6\", \"tag\": \"dns\"\x7d"

def mixedValue : Json :=
  .object
    [("queryStrategy", .string " USEIPV6"),
     ("servers", .array [.string "1.1.1.1", .object [("address", .string "8.8.8.8"),
       ("domains", .array []), ("port", .number (.integer 53))]]),
     ("tag", .string "dns")]

theorem toJson_resolve_mixed :
    (File.ofText mixedText).Holds mixedValue ∧ IsDocument mixedValue ∧
      (Policy.resolve (File.ofText mixedText) "9.9.9.9" true
        [⟨1, "in", [⟨none, "dns", [" ", "a.example "], some " 10.0.0.1"⟩]⟩]).toJson.normal =
        .object
          [("queryStrategy", .string "UseIPv6"),
           ("servers", .array [.object [("address", .string "1.1.1.1")],
             .object [("address", .string "8.8.8.8"), ("port", .number (.integer 53))],
             .object [("address", .string "10.0.0.1"),
               ("domains", .array [.string "a.example"])]]),
           ("tag", .string "dns")] := by
  have hholds : (File.ofText mixedText).Holds mixedValue :=
    File.holds_ofText_iff.mpr (by decide +kernel)
  have hdocument : IsDocument mixedValue := by decide +kernel
  have hresolved := (toJson_resolve (File.ofText mixedText) "9.9.9.9" true
    [⟨1, "in", [⟨none, "dns", [" ", "a.example "], some " 10.0.0.1"⟩]⟩]).1 mixedValue hholds
  refine ⟨hholds, hdocument, (hresolved.2.1 hdocument).trans ?_⟩
  decide +kernel

end EgressPolicy.Dns
