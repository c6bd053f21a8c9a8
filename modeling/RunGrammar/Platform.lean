import RunGrammar.Alphabet
import RunGrammar.Files
import Std.Data.ExtTreeMap

/-! What the command relies on and does not define itself: the environment, the files with their
paths, and the library that reads JSON. Paths need not be texts, but they can be shown. -/
namespace RunGrammar

structure Platform (Path : Type) where
  /-- The bytes of the variable that gives the level of the log, if it is set. -/
  logLevel : Option ByteArray
  files : Files Path
  display : Path → String
  /-- The codes by their names that a JSON text holds, or what is wrong with the text. -/
  symbols : String → Except String (Std.ExtTreeMap String Symbol)

end RunGrammar
