/-! Files by their paths. A file that can be read need not hold a text. -/
namespace RunGrammar

inductive FileError
  /-- A refusal of the system, with its number. -/
  | system (text : String) (number : Nat)
  | invalidUtf8
deriving DecidableEq, Repr

namespace FileError

def notFound : FileError := system "No such file or directory" 2

def message : FileError → String
  | system text number => text ++ " (os error " ++ number.repr ++ ")"
  | invalidUtf8 => "stream did not contain valid UTF-8"

end FileError

/-- What reading a path yields. -/
abbrev Files (Path : Type) := Path → Except FileError ByteArray

/-- The text of a file. -/
def Files.text {Path : Type} (files : Files Path) (path : Path) : Except FileError String :=
  match files path with
  | .error e => .error e
  | .ok bytes =>
    match String.fromUTF8? bytes with
    | some text => .ok text
    | none => .error .invalidUtf8

end RunGrammar
