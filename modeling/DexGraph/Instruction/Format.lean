/-!
# Instruction formats

The opcode in the low byte of the first unit of an instruction fixes its format: how many 16-bit
units it takes and where its operands lie. `InstructionFormat.ofOpcode` looks the format up in a
table of opcode ranges. `operandKinds` says which operands of an instruction are indices into a
table of the image, and at which unit each of them stands.
-/

namespace DexGraph

/-- The format of an instruction: the number of its units, the number of its registers and the
kind of its further data. -/
inductive InstructionFormat
  | f10x
  | f12x
  | f11n
  | f11x
  | f10t
  | f20t
  | f22x
  | f21t
  | f21s
  | f21h
  | f21c
  | f23x
  | f22b
  | f22t
  | f22s
  | f22c
  | f32x
  | f30t
  | f31t
  | f31i
  | f31c
  | f35c
  | f3rc
  | f45cc
  | f4rcc
  | f51l
  deriving DecidableEq, Repr

namespace InstructionFormat

/-- The number of 16-bit units of an instruction. -/
def units : InstructionFormat → Nat
  | f10x | f12x | f11n | f11x | f10t => 1
  | f20t | f22x | f21t | f21s | f21h | f21c | f23x | f22b | f22t | f22s | f22c => 2
  | f32x | f30t | f31t | f31i | f31c | f35c | f3rc => 3
  | f45cc | f4rcc => 4
  | f51l => 5

/-- The name of a format. -/
def name : InstructionFormat → String
  | f10x => "F10x"
  | f12x => "F12x"
  | f11n => "F11n"
  | f11x => "F11x"
  | f10t => "F10t"
  | f20t => "F20t"
  | f22x => "F22x"
  | f21t => "F21t"
  | f21s => "F21s"
  | f21h => "F21h"
  | f21c => "F21c"
  | f23x => "F23x"
  | f22b => "F22b"
  | f22t => "F22t"
  | f22s => "F22s"
  | f22c => "F22c"
  | f32x => "F32x"
  | f30t => "F30t"
  | f31t => "F31t"
  | f31i => "F31i"
  | f31c => "F31c"
  | f35c => "F35c"
  | f3rc => "F3rc"
  | f45cc => "F45cc"
  | f4rcc => "F4rcc"
  | f51l => "F51l"

/-- The formats by ranges of opcodes: the first opcode, the last one and the format. -/
def table : List (UInt8 × UInt8 × InstructionFormat) :=
  [(0x01, 0x01, f12x), (0x02, 0x02, f22x), (0x03, 0x03, f32x), (0x04, 0x04, f12x),
    (0x05, 0x05, f22x), (0x06, 0x06, f32x), (0x07, 0x07, f12x), (0x08, 0x08, f22x),
    (0x09, 0x09, f32x), (0x0A, 0x0D, f11x), (0x0F, 0x11, f11x), (0x12, 0x12, f11n),
    (0x13, 0x13, f21s), (0x14, 0x14, f31i), (0x15, 0x15, f21h), (0x16, 0x16, f21s),
    (0x17, 0x17, f31i), (0x18, 0x18, f51l), (0x19, 0x19, f21h), (0x1A, 0x1A, f21c),
    (0x1B, 0x1B, f31c), (0x1C, 0x1C, f21c), (0x1D, 0x1E, f11x), (0x1F, 0x1F, f21c),
    (0x20, 0x20, f22c), (0x21, 0x21, f12x), (0x22, 0x22, f21c), (0x23, 0x23, f22c),
    (0x24, 0x24, f35c), (0x25, 0x25, f3rc), (0x26, 0x26, f31t), (0x27, 0x27, f11x),
    (0x28, 0x28, f10t), (0x29, 0x29, f20t), (0x2A, 0x2A, f30t), (0x2B, 0x2C, f31t),
    (0x2D, 0x31, f23x), (0x32, 0x37, f22t), (0x38, 0x3D, f21t), (0x44, 0x51, f23x),
    (0x52, 0x5F, f22c), (0x60, 0x6D, f21c), (0x6E, 0x72, f35c), (0x74, 0x78, f3rc),
    (0x7B, 0x8F, f12x), (0x90, 0xAF, f23x), (0xB0, 0xCF, f12x), (0xD0, 0xD7, f22s),
    (0xD8, 0xE2, f22b), (0xFA, 0xFA, f45cc), (0xFB, 0xFB, f4rcc), (0xFC, 0xFC, f35c),
    (0xFD, 0xFD, f3rc), (0xFE, 0xFF, f21c)]

/-- The format of the instructions with an opcode; an opcode in none of the ranges takes one unit
without operands. -/
def ofOpcode (opcode : UInt8) : InstructionFormat :=
  match table.find? fun (low, high, _) => low ≤ opcode && opcode ≤ high with
  | some (_, _, format) => format
  | none => f10x

theorem units_pos (format : InstructionFormat) : 0 < format.units := by
  cases format <;> decide

end InstructionFormat

/-- The table into which an operand is an index. -/
inductive OperandKind
  | string
  | type
  | field
  | method
  | proto
  | callSite
  | methodHandle
  deriving DecidableEq, Repr

namespace OperandKind

/-- The name of a kind of operand. -/
def name : OperandKind → String
  | string => "String"
  | type => "Type"
  | field => "Field"
  | method => "Method"
  | proto => "Proto"
  | callSite => "CallSite"
  | methodHandle => "MethodHandle"

end OperandKind

/-- Where an index stands in an instruction: at a unit, in one unit or in two. -/
inductive OperandPlace
  | half (unit : Nat)
  | full (unit : Nat)
  deriving DecidableEq, Repr

/-- The indices among the operands of the instructions with an opcode. -/
def operandKinds (opcode : UInt8) : List (OperandKind × OperandPlace) :=
  if opcode == 0x1A then [(.string, .half 1)]
  else if opcode == 0x1B then [(.string, .full 1)]
  else if opcode == 0x1C || opcode == 0x1F || opcode == 0x20 ||
      (0x22 ≤ opcode && opcode ≤ 0x25) then [(.type, .half 1)]
  else if 0x52 ≤ opcode && opcode ≤ 0x6D then [(.field, .half 1)]
  else if (0x6E ≤ opcode && opcode ≤ 0x72) || (0x74 ≤ opcode && opcode ≤ 0x78) then
    [(.method, .half 1)]
  else if opcode == 0xFA || opcode == 0xFB then [(.method, .half 1), (.proto, .half 3)]
  else if opcode == 0xFC || opcode == 0xFD then [(.callSite, .half 1)]
  else if opcode == 0xFE then [(.methodHandle, .half 1)]
  else if opcode == 0xFF then [(.proto, .half 1)]
  else []

end DexGraph
