/-! # Events

What an assembly reports while it runs: lines of text, each at a level. Operations return their events as data, in
the order in which they arise. -/

namespace MethodAssembler

inductive Level where
  | debug
  | info
  | warn
deriving DecidableEq, Repr

structure Event where
  level : Level
  text : String
deriving DecidableEq, Repr

def Level.text : Level → String
  | .debug => "DEBUG"
  | .info => "INFO"
  | .warn => "WARN"

def Event.debug (text : String) : Event := ⟨.debug, text⟩
def Event.info (text : String) : Event := ⟨.info, text⟩
def Event.warn (text : String) : Event := ⟨.warn, text⟩

/-- An event about named quantities: the message, and each name with its number. -/
def Event.counted (level : Level) (message : String) (fields : List (String × Nat)) : Event :=
  ⟨level, fields.foldl (fun line (name, n) => line ++ " " ++ name ++ "=" ++ toString n) message⟩

/-- An event as one line. -/
def Event.line (e : Event) : String := e.level.text ++ " " ++ e.text

/-- An event as one line whose levels end in the same column. -/
def Event.alignedLine (e : Event) : String :=
  "".pushn ' ' (5 - e.level.text.length) ++ e.line

end MethodAssembler
