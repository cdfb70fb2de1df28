import Asm65.Text.Case

/-!
# Mnemonics

The fifty-six documented instruction names of the 6502, in alphabetical order.  A
mnemonic is a name only: which operands it takes is decided by its encodings in
`Asm65.Opcode`.
-/

namespace Asm65

inductive Mnemonic
  | adc | and | asl | bcc | bcs | beq | bit | bmi | bne | bpl | brk | bvc | bvs | clc
  | cld | cli | clv | cmp | cpx | cpy | dec | dex | dey | eor | inc | inx | iny | jmp
  | jsr | lda | ldx | ldy | lsr | nop | ora | pha | php | pla | plp | rol | ror | rti
  | rts | sbc | sec | sed | sei | sta | stx | sty | tax | tay | tsx | txa | txs | tya
  deriving DecidableEq, Inhabited

namespace Mnemonic

/-- Every mnemonic once, in the order of the instruction table. -/
def all : List Mnemonic :=
  [ .adc, .and, .asl, .bcc, .bcs, .beq, .bit, .bmi, .bne, .bpl, .brk, .bvc, .bvs, .clc,
    .cld, .cli, .clv, .cmp, .cpx, .cpy, .dec, .dex, .dey, .eor, .inc, .inx, .iny, .jmp,
    .jsr, .lda, .ldx, .ldy, .lsr, .nop, .ora, .pha, .php, .pla, .plp, .rol, .ror, .rti,
    .rts, .sbc, .sec, .sed, .sei, .sta, .stx, .sty, .tax, .tay, .tsx, .txa, .txs, .tya ]

def name : Mnemonic -> String
  | .adc => "ADC" | .and => "AND" | .asl => "ASL" | .bcc => "BCC" | .bcs => "BCS"
  | .beq => "BEQ" | .bit => "BIT" | .bmi => "BMI" | .bne => "BNE" | .bpl => "BPL"
  | .brk => "BRK" | .bvc => "BVC" | .bvs => "BVS" | .clc => "CLC" | .cld => "CLD"
  | .cli => "CLI" | .clv => "CLV" | .cmp => "CMP" | .cpx => "CPX" | .cpy => "CPY"
  | .dec => "DEC" | .dex => "DEX" | .dey => "DEY" | .eor => "EOR" | .inc => "INC"
  | .inx => "INX" | .iny => "INY" | .jmp => "JMP" | .jsr => "JSR" | .lda => "LDA"
  | .ldx => "LDX" | .ldy => "LDY" | .lsr => "LSR" | .nop => "NOP" | .ora => "ORA"
  | .pha => "PHA" | .php => "PHP" | .pla => "PLA" | .plp => "PLP" | .rol => "ROL"
  | .ror => "ROR" | .rti => "RTI" | .rts => "RTS" | .sbc => "SBC" | .sec => "SEC"
  | .sed => "SED" | .sei => "SEI" | .sta => "STA" | .stx => "STX" | .sty => "STY"
  | .tax => "TAX" | .tay => "TAY" | .tsx => "TSX" | .txa => "TXA" | .txs => "TXS"
  | .tya => "TYA"

/-- The row of a mnemonic in the instruction table, counted from zero. -/
def index (m : Mnemonic) : Nat :=
  all.idxOf m

/-- Finds a mnemonic by its name, whose letters may be in either case. -/
def ofName? (s : String) : Option Mnemonic :=
  all.find? fun m => m.name == Text.upper s

end Mnemonic
end Asm65
