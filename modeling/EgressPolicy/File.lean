/-!
Files that may be missing.

What a path holds is absent, a directory, or bytes. Reading gives a text only from bytes that are
valid UTF-8. `File.load` reads and parses: a missing file is no error and gives nothing, and the two
ways to fail, reading and parsing, stay apart.
-/

namespace EgressPolicy

/-- What stands at a path. -/
inductive File where
  /-- Nothing. -/
  | absent
  /-- A directory, which cannot be read as a text. -/
  | directory
  /-- A file and its bytes. -/
  | bytes (contents : ByteArray)

/-- Why a file that is there cannot be used. -/
inductive FileError (ε : Type) where
  /-- The file is no readable text. -/
  | unreadable
  /-- The text was refused by its parser. -/
  | refused (error : ε)

namespace File

def ofText (s : String) : File :=
  .bytes s.toUTF8

def text? : File → Option String
  | bytes contents => String.fromUTF8? contents
  | absent | directory => none

/-- The parsed contents of a file, or `none` where there is no file. -/
def load {ε α : Type} (file : File) (parse : String → Except ε α) :
    Except (FileError ε) (Option α) :=
  match file with
  | absent => .ok none
  | directory | bytes _ =>
    match file.text? with
    | none => .error .unreadable
    | some s =>
      match parse s with
      | .ok a => .ok (some a)
      | .error e => .error (.refused e)

/-- The parsed contents of a file that is there and can be used. -/
def usable? {ε α : Type} (file : File) (parse : String → Except ε α) : Option α :=
  match file.load parse with
  | .ok a => a
  | .error _ => none

end File

end EgressPolicy
