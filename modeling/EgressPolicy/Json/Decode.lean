import EgressPolicy.Json.Reader
import EgressPolicy.Text.Vocabulary

/-!
From trees to the data of a schema.

A decoder walks a tree in the order of the text and stops at the first fault. The helpers here say
what every schema has in common: a field may be given once, a field without a default has to be
given, and a missing one is noticed at the end of its object. What is skipped only has to be
grammatical.
-/

namespace EgressPolicy.Json

/-- Why a text is not the data of a schema. -/
inductive DecodeError where
  /-- The text is no JSON, or a value is not of the kind that its place asks for. -/
  | malformed
  | missingField (name : String)
  | duplicateField (name : String)
  /-- A word is not in the vocabulary of its field. -/
  | unknownWord (word : Text.UnknownWord)
  deriving DecidableEq, Repr

/-- The report of an error, where there is more to say than that the text is malformed. -/
def DecodeError.message : DecodeError → Option String
  | malformed => none
  | missingField name => some ("missing field " ++ quotedName name)
  | duplicateField name => some ("duplicate field " ++ quotedName name)
  | unknownWord word => some word.message
where
  /-- A name between grave accents. -/
  quotedName (name : String) : String := "\x60" ++ name ++ "\x60"

/-- A decoded value or the first fault. -/
abbrev Decoded (α : Type) := Except DecodeError α

namespace Tree

/-- A value that is given, or a malformed text. -/
def orMalformed {α : Type} : Option α → Decoded α
  | some a => .ok a
  | none => .error .malformed

def text : Tree → Decoded String
  | string (some s) => .ok s
  | _ => .error .malformed

def int64 : Tree → Decoded Int64
  | number (some (.integer n)) =>
    if Int64.minValue.toInt ≤ n ∧ n ≤ Int64.maxValue.toInt then .ok (Int64.ofInt n)
    else .error .malformed
  | _ => .error .malformed

def nullable {α : Type} (decode : Tree → Decoded α) : Tree → Decoded (Option α)
  | null => .ok none
  | t => (decode t).map some

def list {α : Type} (decode : Tree → Decoded α) : Tree → Decoded (List α)
  | array items => items.mapM decode
  | _ => .error .malformed

/-- A value that is not looked at. -/
def skipped (t : Tree) : Decoded Unit :=
  if t.isGrammatical then .ok () else .error .malformed

/-- A value that is kept as it is, with a bound on its depth. -/
def kept (room : Nat) (t : Tree) : Decoded Json :=
  orMalformed (t.value? room)

/-! ## Objects -/

/-- Takes the members of an object into a draft, one after the other. -/
def foldMembers {σ : Type} (step : σ → String → Tree → Decoded σ) (draft : σ)
    (members : List (Option String × Tree)) : Decoded σ :=
  members.foldlM
    (fun draft member =>
      match member.1 with
      | some key => step draft key member.2
      | none => .error .malformed)
    draft

/-- The value of a field that has not been given before. -/
def given {α : Type} (name : String) (before : Option α) (decode : Tree → Decoded α) (t : Tree) :
    Decoded (Option α) :=
  match before with
  | some _ => .error (.duplicateField name)
  | none => (decode t).map some

/-- The value of a field without a default, at the end of its object. -/
def required {α : Type} (name : String) : Option α → Decoded α
  | some a => .ok a
  | none => .error (.missingField name)

end Tree

/-- Decodes a whole text. That something follows the value is noticed last. -/
def decodeText {α : Type} (decode : Tree → Decoded α) (s : String) : Decoded α := do
  let page := Page.ofText s
  let a ← decode page.tree
  if page.isComplete then .ok a else .error .malformed

end EgressPolicy.Json
