import EgressPolicy.Text.Vocabulary

/-!
Domain strategies: how the engine resolves names before it matches addresses.
-/

namespace EgressPolicy.Override

/-- What the engine does with a name that a rule for addresses could match. -/
inductive DomainStrategy where
  /-- Match the name as it is. -/
  | asIs
  /-- Resolve it when no rule matched. -/
  | ipIfNonMatch
  /-- Resolve it when a rule for addresses is met. -/
  | ipOnDemand
  deriving DecidableEq, Repr

namespace DomainStrategy

def name : DomainStrategy → String
  | asIs => "AsIs"
  | ipIfNonMatch => "IPIfNonMatch"
  | ipOnDemand => "IPOnDemand"

/-- Reads a strategy word; a blank one means the default. -/
def ofText (s : String) : Except Text.UnknownWord DomainStrategy :=
  let word := Text.canonical s
  if word = "" ∨ word = "asis" then .ok asIs
  else if word = "ipifnonmatch" then .ok ipIfNonMatch
  else if word = "ipondemand" then .ok ipOnDemand
  else .error ⟨"domain strategy", s⟩

end DomainStrategy

end EgressPolicy.Override
