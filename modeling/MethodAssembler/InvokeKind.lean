/-! # Kinds of invocation

How a method is called. A pointer literal carries the kind as a small number for the linker. -/

namespace MethodAssembler

inductive InvokeKind where
  | static
  | direct
  | virtual
  | super
  | interface
deriving DecidableEq, Repr, Inhabited

namespace InvokeKind

def toOperand : InvokeKind → Int32
  | .static => 0
  | .direct => 1
  | .virtual => 2
  | .super => 3
  | .interface => 4

def ofOperand? (operand : Int32) : Option InvokeKind :=
  if operand = 0 then some .static
  else if operand = 1 then some .direct
  else if operand = 2 then some .virtual
  else if operand = 3 then some .super
  else if operand = 4 then some .interface
  else none

theorem ofOperand?_toOperand (k : InvokeKind) : ofOperand? k.toOperand = some k := by
  cases k <;> decide

/-- The name of a kind in descriptions. -/
def name : InvokeKind → String
  | .static => "static"
  | .direct => "direct"
  | .virtual => "virtual"
  | .super => "super"
  | .interface => "interface"

/-- The name of a kind in listings. -/
def text : InvokeKind → String
  | .static => "Static"
  | .direct => "Direct"
  | .virtual => "Virtual"
  | .super => "Super"
  | .interface => "Interface"

def all : List InvokeKind := [.static, .direct, .virtual, .super, .interface]

end InvokeKind

end MethodAssembler
