import DexGraph.Error
import DexGraph.Instruction.Format

/-!
# Walking through a body

A body is a sequence of 16-bit units in which instructions follow each other without gaps. The
tables of switches and array contents lie among them as payloads, which look like an instruction
with opcode zero and are passed over whole. `Walk.ofUnits` lists the instructions of a body up to
its end or to the first one that does not fit.
-/

namespace DexGraph

/-- An operand that is an index into a table of the image. -/
structure Operand where
  kind : OperandKind
  index : UInt32
  deriving DecidableEq, Repr

/-- An instruction of a body, or a payload, which has no format. -/
structure Instruction where
  pc : Nat
  opcode : UInt8
  format : Option InstructionFormat
  units : Nat
  operands : List Operand
  deriving DecidableEq, Repr

namespace Instruction

/-- Whether this is a payload. -/
def isPayload (i : Instruction) : Bool :=
  i.format.isNone

/-- The unit at a position. -/
def unitAt (body : Array UInt16) (position : Nat) : Except Error UInt16 :=
  match body[position]? with
  | some u => .ok u
  | none => .error .outOfBounds

/-- The 32-bit number in the units at a position, the low one first. -/
def wordAt (body : Array UInt16) (position : Nat) : Except Error UInt32 := do
  let low ← unitAt body position
  let high ← unitAt body (position + 1)
  return low.toUInt32 ||| (high.toUInt32 <<< 16)

/-- The number of units of the payload at a position; `none` if no payload starts there. -/
def payloadUnits? (body : Array UInt16) (pc : Nat) : Except Error (Option Nat) := do
  let first ← unitAt body pc
  if first == 0x0100 then
    let size ← unitAt body (pc + 1)
    return some (4 + size.toNat * 2)
  else if first == 0x0200 then
    let size ← unitAt body (pc + 1)
    return some (2 + size.toNat * 4)
  else if first == 0x0300 then
    let width ← unitAt body (pc + 1)
    let size ← wordAt body (pc + 2)
    return some (4 + (size.toNat * width.toNat + 1) / 2)
  else return none

/-- The index at a place of the instruction at a position. -/
def indexAt (body : Array UInt16) (pc : Nat) : OperandPlace → Except Error UInt32
  | .half unit => do
    return (← unitAt body (pc + unit)).toUInt32
  | .full unit => wordAt body (pc + unit)

/-- The operands of the instruction at a position. -/
def operandsAt (body : Array UInt16) (pc : Nat) (opcode : UInt8) : Except Error (List Operand) :=
  (operandKinds opcode).mapM fun (kind, place) => do
    return ⟨kind, ← indexAt body pc place⟩

/-- The instruction or payload at a position of a body, if all of it lies inside. -/
def decodeAt (body : Array UInt16) (pc : Nat) : Except Error Instruction := do
  let opcode := (← unitAt body pc).toUInt8
  match ← payloadUnits? body pc with
  | some units =>
    if pc + units > body.size then throw .outOfBounds
    return ⟨pc, opcode, none, units, []⟩
  | none =>
    let format := InstructionFormat.ofOpcode opcode
    if pc + format.units > body.size then throw .outOfBounds
    return ⟨pc, opcode, some format, format.units, ← operandsAt body pc opcode⟩

end Instruction

/-- The instructions of a body in their order, up to its end or up to the first one that cannot
be decoded, which gives the failure. -/
structure Walk where
  instructions : List Instruction
  failure : Option Error
  deriving DecidableEq, Repr

namespace Walk

/-- The walk with an instruction before it. -/
def cons (i : Instruction) (walk : Walk) : Walk :=
  { walk with instructions := i :: walk.instructions }

/-- The walk through the units from a position on; `steps` bounds the number of instructions. -/
def fromPosition (body : Array UInt16) : (steps pc : Nat) → Walk
  | 0, _ => ⟨[], none⟩
  | steps + 1, pc =>
    if pc < body.size then
      match Instruction.decodeAt body pc with
      | .ok i => (fromPosition body steps (pc + i.units)).cons i
      | .error e => ⟨[], some e⟩
    else ⟨[], none⟩

/-- The walk through a body. Each instruction takes a unit at least, so there are no more of them
than units. -/
def ofUnits (body : Array UInt16) : Walk :=
  fromPosition body body.size 0

end Walk

end DexGraph
