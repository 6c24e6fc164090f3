import Breadboard.Isa.OpcodeTable

namespace Breadboard

/-- Opcode, size, cycles, operation and mode of each documented instruction. -/
def documented : List OpcodeEntry :=
  [ ⟨0x69, 2, 2, .ADC, .immediate⟩, ⟨0x65, 2, 3, .ADC, .zeroPage⟩,
    ⟨0x75, 2, 4, .ADC, .zeroPageX⟩, ⟨0x6D, 3, 4, .ADC, .absolute⟩,
    ⟨0x7D, 3, 4, .ADC, .absoluteX⟩, ⟨0x79, 3, 4, .ADC, .absoluteY⟩,
    ⟨0x61, 2, 6, .ADC, .indexedIndirectX⟩, ⟨0x71, 2, 5, .ADC, .indirectIndexedY⟩,
    ⟨0x29, 2, 2, .AND, .immediate⟩, ⟨0x25, 2, 3, .AND, .zeroPage⟩,
    ⟨0x35, 2, 4, .AND, .zeroPageX⟩, ⟨0x2D, 3, 4, .AND, .absolute⟩,
    ⟨0x3D, 3, 4, .AND, .absoluteX⟩, ⟨0x39, 3, 4, .AND, .absoluteY⟩,
    ⟨0x21, 2, 6, .AND, .indexedIndirectX⟩, ⟨0x31, 2, 5, .AND, .indirectIndexedY⟩,
    ⟨0x0A, 1, 2, .ASL, .accumulator⟩, ⟨0x06, 2, 5, .ASL, .zeroPage⟩,
    ⟨0x16, 2, 6, .ASL, .zeroPageX⟩, ⟨0x0E, 3, 6, .ASL, .absolute⟩,
    ⟨0x1E, 3, 7, .ASL, .absoluteX⟩, ⟨0x90, 2, 2, .BCC, .relative⟩,
    ⟨0xB0, 2, 2, .BCS, .relative⟩, ⟨0xF0, 2, 2, .BEQ, .relative⟩,
    ⟨0x30, 2, 2, .BMI, .relative⟩, ⟨0xD0, 2, 2, .BNE, .relative⟩,
    ⟨0x10, 2, 2, .BPL, .relative⟩, ⟨0x50, 2, 2, .BVC, .relative⟩,
    ⟨0x70, 2, 2, .BVS, .relative⟩, ⟨0x24, 2, 3, .BIT, .zeroPage⟩,
    ⟨0x2C, 3, 4, .BIT, .absolute⟩, ⟨0x00, 1, 7, .BRK, .implied⟩,
    ⟨0x18, 1, 2, .CLC, .implied⟩, ⟨0xD8, 1, 2, .CLD, .implied⟩,
    ⟨0x58, 1, 2, .CLI, .implied⟩, ⟨0xB8, 1, 2, .CLV, .implied⟩,
    ⟨0xC9, 2, 2, .CMP, .immediate⟩, ⟨0xC5, 2, 3, .CMP, .zeroPage⟩,
    ⟨0xD5, 2, 4, .CMP, .zeroPageX⟩, ⟨0xCD, 3, 4, .CMP, .absolute⟩,
    ⟨0xDD, 3, 4, .CMP, .absoluteX⟩, ⟨0xD9, 3, 4, .CMP, .absoluteY⟩,
    ⟨0xC1, 2, 6, .CMP, .indexedIndirectX⟩, ⟨0xD1, 2, 5, .CMP, .indirectIndexedY⟩,
    ⟨0xE0, 2, 2, .CPX, .immediate⟩, ⟨0xE4, 2, 3, .CPX, .zeroPage⟩,
    ⟨0xEC, 3, 4, .CPX, .absolute⟩, ⟨0xC0, 2, 2, .CPY, .immediate⟩,
    ⟨0xC4, 2, 3, .CPY, .zeroPage⟩, ⟨0xCC, 3, 4, .CPY, .absolute⟩,
    ⟨0xC6, 2, 5, .DEC, .zeroPage⟩, ⟨0xD6, 2, 6, .DEC, .zeroPageX⟩,
    ⟨0xCE, 3, 6, .DEC, .absolute⟩, ⟨0xDE, 3, 7, .DEC, .absoluteX⟩,
    ⟨0xCA, 1, 2, .DEX, .implied⟩, ⟨0x88, 1, 2, .DEY, .implied⟩,
    ⟨0x49, 2, 2, .EOR, .immediate⟩, ⟨0x45, 2, 3, .EOR, .zeroPage⟩,
    ⟨0x55, 2, 4, .EOR, .zeroPageX⟩, ⟨0x4D, 3, 4, .EOR, .absolute⟩,
    ⟨0x5D, 3, 4, .EOR, .absoluteX⟩, ⟨0x59, 3, 4, .EOR, .absoluteY⟩,
    ⟨0x41, 2, 6, .EOR, .indexedIndirectX⟩, ⟨0x51, 2, 5, .EOR, .indirectIndexedY⟩,
    ⟨0xE6, 2, 5, .INC, .zeroPage⟩, ⟨0xF6, 2, 6, .INC, .zeroPageX⟩,
    ⟨0xEE, 3, 6, .INC, .absolute⟩, ⟨0xFE, 3, 7, .INC, .absoluteX⟩,
    ⟨0xE8, 1, 2, .INX, .implied⟩, ⟨0xC8, 1, 2, .INY, .implied⟩,
    ⟨0x4C, 3, 3, .JMP, .absolute⟩, ⟨0x6C, 3, 5, .JMP, .indirect⟩,
    ⟨0x20, 3, 6, .JSR, .absolute⟩, ⟨0xA9, 2, 2, .LDA, .immediate⟩,
    ⟨0xA5, 2, 3, .LDA, .zeroPage⟩, ⟨0xB5, 2, 4, .LDA, .zeroPageX⟩,
    ⟨0xAD, 3, 4, .LDA, .absolute⟩, ⟨0xBD, 3, 4, .LDA, .absoluteX⟩,
    ⟨0xB9, 3, 4, .LDA, .absoluteY⟩, ⟨0xA1, 2, 6, .LDA, .indexedIndirectX⟩,
    ⟨0xB1, 2, 5, .LDA, .indirectIndexedY⟩, ⟨0xA2, 2, 2, .LDX, .immediate⟩,
    ⟨0xA6, 2, 3, .LDX, .zeroPage⟩, ⟨0xB6, 2, 4, .LDX, .zeroPageY⟩,
    ⟨0xAE, 3, 4, .LDX, .absolute⟩, ⟨0xBE, 3, 4, .LDX, .absoluteY⟩,
    ⟨0xA0, 2, 2, .LDY, .immediate⟩, ⟨0xA4, 2, 3, .LDY, .zeroPage⟩,
    ⟨0xB4, 2, 4, .LDY, .zeroPageX⟩, ⟨0xAC, 3, 4, .LDY, .absolute⟩,
    ⟨0xBC, 3, 4, .LDY, .absoluteX⟩, ⟨0x4A, 1, 2, .LSR, .accumulator⟩,
    ⟨0x46, 2, 5, .LSR, .zeroPage⟩, ⟨0x56, 2, 6, .LSR, .zeroPageX⟩,
    ⟨0x4E, 3, 6, .LSR, .absolute⟩, ⟨0x5E, 3, 7, .LSR, .absoluteX⟩,
    ⟨0xEA, 1, 2, .NOP, .implied⟩, ⟨0x09, 2, 2, .ORA, .immediate⟩,
    ⟨0x05, 2, 3, .ORA, .zeroPage⟩, ⟨0x15, 2, 4, .ORA, .zeroPageX⟩,
    ⟨0x0D, 3, 4, .ORA, .absolute⟩, ⟨0x1D, 3, 4, .ORA, .absoluteX⟩,
    ⟨0x19, 3, 4, .ORA, .absoluteY⟩, ⟨0x01, 2, 6, .ORA, .indexedIndirectX⟩,
    ⟨0x11, 2, 5, .ORA, .indirectIndexedY⟩, ⟨0x48, 1, 3, .PHA, .implied⟩,
    ⟨0x08, 1, 3, .PHP, .implied⟩, ⟨0x68, 1, 4, .PLA, .implied⟩,
    ⟨0x28, 1, 4, .PLP, .implied⟩, ⟨0x2A, 1, 2, .ROL, .accumulator⟩,
    ⟨0x26, 2, 5, .ROL, .zeroPage⟩, ⟨0x36, 2, 6, .ROL, .zeroPageX⟩,
    ⟨0x2E, 3, 6, .ROL, .absolute⟩, ⟨0x3E, 3, 7, .ROL, .absoluteX⟩,
    ⟨0x6A, 1, 2, .ROR, .accumulator⟩, ⟨0x66, 2, 5, .ROR, .zeroPage⟩,
    ⟨0x76, 2, 6, .ROR, .zeroPageX⟩, ⟨0x6E, 3, 6, .ROR, .absolute⟩,
    ⟨0x7E, 3, 7, .ROR, .absoluteX⟩, ⟨0x40, 1, 6, .RTI, .implied⟩,
    ⟨0x60, 1, 6, .RTS, .implied⟩, ⟨0xE9, 2, 2, .SBC, .immediate⟩,
    ⟨0xE5, 2, 3, .SBC, .zeroPage⟩, ⟨0xF5, 2, 4, .SBC, .zeroPageX⟩,
    ⟨0xED, 3, 4, .SBC, .absolute⟩, ⟨0xFD, 3, 4, .SBC, .absoluteX⟩,
    ⟨0xF9, 3, 4, .SBC, .absoluteY⟩, ⟨0xE1, 2, 6, .SBC, .indexedIndirectX⟩,
    ⟨0xF1, 2, 5, .SBC, .indirectIndexedY⟩, ⟨0x38, 1, 2, .SEC, .implied⟩,
    ⟨0xF8, 1, 2, .SED, .implied⟩, ⟨0x78, 1, 2, .SEI, .implied⟩,
    ⟨0x85, 2, 3, .STA, .zeroPage⟩, ⟨0x95, 2, 4, .STA, .zeroPageX⟩,
    ⟨0x8D, 3, 4, .STA, .absolute⟩, ⟨0x9D, 3, 5, .STA, .absoluteX⟩,
    ⟨0x99, 3, 5, .STA, .absoluteY⟩, ⟨0x81, 2, 6, .STA, .indexedIndirectX⟩,
    ⟨0x91, 2, 6, .STA, .indirectIndexedY⟩, ⟨0x86, 2, 3, .STX, .zeroPage⟩,
    ⟨0x96, 2, 4, .STX, .zeroPageY⟩, ⟨0x8E, 3, 4, .STX, .absolute⟩,
    ⟨0x84, 2, 3, .STY, .zeroPage⟩, ⟨0x94, 2, 4, .STY, .zeroPageX⟩,
    ⟨0x8C, 3, 4, .STY, .absolute⟩, ⟨0xAA, 1, 2, .TAX, .implied⟩,
    ⟨0xA8, 1, 2, .TAY, .implied⟩, ⟨0xBA, 1, 2, .TSX, .implied⟩,
    ⟨0x8A, 1, 2, .TXA, .implied⟩, ⟨0x9A, 1, 2, .TXS, .implied⟩,
    ⟨0x98, 1, 2, .TYA, .implied⟩ ]

/-- The table of the machine. The instruction set keeps the rules of a table,
so no error comes up. -/
def opcodes : OpcodeTable :=
  match OpcodeTable.build documented with
  | .ok t => t
  | .error _ => .empty

end Breadboard
