import EgressPolicy.Text.Blank

/-!
Closed vocabularies.

A configuration word is read without regard to surrounding blanks and to ASCII case. A word that
names nothing is reported as it was written, so that an operator finds it in the file.
-/

namespace EgressPolicy.Text

/-- A text with its ASCII capitals made small; no other character changes. -/
def lowerCase (s : String) : String :=
  s.map Char.toLower

@[simp] theorem toList_lowerCase (s : String) : (lowerCase s).toList = s.toList.map Char.toLower :=
  String.toList_map

/-- The form in which a word is looked up: trimmed and in lower case. -/
def canonical (word : String) : String :=
  lowerCase (trim word)

/-- A word that names no member of a vocabulary. -/
structure UnknownWord where
  /-- What the word should have named, such as a query strategy. -/
  vocabulary : String
  /-- The word as it was written, blanks included. -/
  word : String
  deriving DecidableEq, Repr

def UnknownWord.message (e : UnknownWord) : String :=
  "unknown " ++ e.vocabulary ++ " '" ++ e.word ++ "'"

end EgressPolicy.Text
