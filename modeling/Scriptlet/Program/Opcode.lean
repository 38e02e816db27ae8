import Scriptlet.Text.Digits

/-!
# Opcodes

The instruction set: for each opcode its byte, its name, the number of values it takes from the
stack and puts on it, and the operand its instructions carry.
-/

namespace Scriptlet

/-- What an instruction carries beside its opcode. -/
inductive OperandKind where
  | none | value | name | label
  deriving DecidableEq, Repr

namespace OperandKind

/-- The operand kinds; a kind's number is its place in the list. -/
def all : List OperandKind := [none, value, name, label]

/-- The name of an operand kind. -/
def text : OperandKind → Bytes
  | none => "none"
  | value => "value"
  | name => "name"
  | label => "label"

/-- The name of the operand kind with the given number, if any. -/
def nameOfCode (code : Nat) : Bytes :=
  match all[code]? with
  | some k => k.text
  | Option.none => "OperandKind(" ++ decimal code ++ ")"

end OperandKind

/-- The operations of the machine. -/
inductive Opcode where
  /-- Marks the target of jumps and does nothing. -/
  | label
  /-- Puts a literal on the stack. -/
  | push
  /-- Drops the top of the stack. -/
  | pop
  | add | sub | mul | div | mod | exp | neg
  | and | or | xor
  | eq | ne | lt | le | gt | ge
  | print | println
  | storeGlobal | loadGlobal
  /-- Continues at a label. -/
  | jump
  /-- Continues at a label if the value on top of the stack is falsy. -/
  | jumpZero
  /-- Ends the run. -/
  | halt
  deriving DecidableEq, Repr

namespace Opcode

/-- The opcodes in the order of their bytes. -/
def all : List Opcode :=
  [label, push, pop, add, sub, mul, div, mod, exp, neg, and, or, xor, eq, ne, lt, le, gt, ge, print,
    println, storeGlobal, loadGlobal, jump, jumpZero, halt]

/-- The byte of an opcode. -/
def byte : Opcode → UInt8
  | label => 0x00
  | push => 0x01
  | pop => 0x02
  | add => 0x10
  | sub => 0x11
  | mul => 0x12
  | div => 0x13
  | mod => 0x14
  | exp => 0x15
  | neg => 0x16
  | and => 0x20
  | or => 0x21
  | xor => 0x22
  | eq => 0x30
  | ne => 0x31
  | lt => 0x32
  | le => 0x33
  | gt => 0x34
  | ge => 0x35
  | print => 0x40
  | println => 0x41
  | storeGlobal => 0x50
  | loadGlobal => 0x51
  | jump => 0x60
  | jumpZero => 0x61
  | halt => 0xFF

/-- The opcode with the given byte. -/
def ofByte? (b : UInt8) : Option Opcode := all.find? fun op => op.byte == b

/-- Whether the byte is an opcode. -/
def isValid (b : UInt8) : Bool := (ofByte? b).isSome

/-- An opcode is read back from its byte. -/
@[simp] theorem ofByte?_byte (op : Opcode) : ofByte? op.byte = some op := by cases op <;> rfl

/-- What is known of an opcode without running it. -/
structure Info where
  name : Bytes
  /-- The number of values taken from the stack. -/
  pops : Nat
  /-- The number of values put on the stack. -/
  pushes : Nat
  operand : OperandKind
  deriving DecidableEq, Repr

/-- The description of each opcode. -/
def info : Opcode → Info
  | label => ⟨"LABEL", 0, 0, .label⟩
  | push => ⟨"PUSH", 0, 1, .value⟩
  | pop => ⟨"POP", 1, 0, .none⟩
  | add => ⟨"ADD", 2, 1, .none⟩
  | sub => ⟨"SUB", 2, 1, .none⟩
  | mul => ⟨"MUL", 2, 1, .none⟩
  | div => ⟨"DIV", 2, 1, .none⟩
  | mod => ⟨"MOD", 2, 1, .none⟩
  | exp => ⟨"EXP", 2, 1, .none⟩
  | neg => ⟨"NEG", 1, 1, .none⟩
  | and => ⟨"AND", 2, 1, .none⟩
  | or => ⟨"OR", 2, 1, .none⟩
  | xor => ⟨"XOR", 2, 1, .none⟩
  | eq => ⟨"EQ", 2, 1, .none⟩
  | ne => ⟨"NE", 2, 1, .none⟩
  | lt => ⟨"LT", 2, 1, .none⟩
  | le => ⟨"LE", 2, 1, .none⟩
  | gt => ⟨"GT", 2, 1, .none⟩
  | ge => ⟨"GE", 2, 1, .none⟩
  | print => ⟨"PRINT", 1, 0, .none⟩
  | println => ⟨"PRINTLN", 1, 0, .none⟩
  | storeGlobal => ⟨"STORE_GLOBAL", 1, 0, .name⟩
  | loadGlobal => ⟨"LOAD_GLOBAL", 0, 1, .name⟩
  | jump => ⟨"JMP", 0, 0, .label⟩
  | jumpZero => ⟨"JMPZ", 1, 0, .label⟩
  | halt => ⟨"HALT", 0, 0, .none⟩

/-- The description of the opcode with the given byte; a byte that is no opcode is named by its
value. -/
def infoOfByte (b : UInt8) : Info :=
  match ofByte? b with
  | some op => op.info
  | Option.none => ⟨"UNKNOWN(0x" ++ hexUpper 2 b.toNat ++ ")", 0, 0, .none⟩

/-- Whether the byte is an opcode that may continue at a label. -/
def isJump (b : UInt8) : Bool := b == jump.byte || b == jumpZero.byte

/-- Whether the byte is an opcode that takes two values and puts one. -/
def isBinary (b : UInt8) : Bool := (infoOfByte b).pops == 2 && (infoOfByte b).pushes == 1

end Opcode

end Scriptlet
