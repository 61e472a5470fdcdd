import JvmOptimizer.Instruction.Text

/-!
# Method bodies

A method body is a list of instructions whose targets are positions in that
list, with the protected ranges of its exception handlers. A range runs from
`start` up to, not including, `stop`; a `stop` at the length of the list runs
to the end of the method.
-/

namespace JvmOptimizer

/-- A row of an exception table, in byte offsets of the code array. -/
structure ExceptionEntry where
  startPc : UInt16
  endPc : UInt16
  handlerPc : UInt16
  /-- Pool index of the caught class, zero for all. -/
  catchType : UInt16
  deriving DecidableEq

/-- The row as it stands in a class file. -/
def ExceptionEntry.toBytes (e : ExceptionEntry) : Bytes :=
  wordBytes e.startPc ++ wordBytes e.endPc ++ wordBytes e.handlerPc ++ wordBytes e.catchType

/-- An exception handler, in positions of the instruction list. -/
structure Handler where
  /-- First protected instruction. -/
  start : Nat
  /-- First instruction behind the protected ones. -/
  stop : Nat
  /-- Where a caught exception continues. -/
  entry : Nat
  /-- Pool index of the caught class, zero for all. -/
  catchType : UInt16
  deriving DecidableEq

/-- A method body with the limits that its method declares. -/
structure Method where
  /-- The instructions, with positions in this list as targets. -/
  code : List (Instruction Nat)
  /-- The handlers, in the order in which they are tried. -/
  handlers : List Handler := []
  /-- Declared depth of the operand stack, in slots. -/
  maxStack : UInt16 := 0
  /-- Declared number of local slots. -/
  maxLocals : UInt16 := 0
  /-- Slots taken by the receiver and the parameters. -/
  parameterSlots : UInt16 := 0

namespace Method

/-- Do two methods have the same instructions and handlers? -/
def sameBody (a b : Method) : Bool := a.code = b.code && a.handlers = b.handlers

/-- A number set right in a field of five characters. -/
private def lineNumber (n : Nat) : String :=
  let digits := toString n
  String.ofList (List.replicate (5 - digits.length) ' ') ++ digits

/-- The body as text: a numbered line per instruction, then a line per
handler. -/
def text (m : Method) : String :=
  let code := m.code.zipIdx.map fun (insn, i) => s!"{lineNumber i}: {insn.text}\n"
  let handlers := m.handlers.map fun h =>
    s!"  try [{h.start}, {h.stop}) -> {h.entry} catch #{h.catchType.toNat}\n"
  String.join (code ++ handlers)

end Method

end JvmOptimizer
