/-!
# Mnemonics

The operations of the 6502 family. Which of them exist depends on the processor.

## Main definitions

* `Mnemonic`: the operations
* `Mnemonic.text`, `Mnemonic.ofText?`: to and from the written form
* `Mnemonic.isJump`, `Mnemonic.inverse?`: what an operation does to the flow of control
-/

namespace Assembler6502

/-- The operation of an instruction. -/
inductive Mnemonic where
  -- The documented operations of the 6502.
  | adc | and | asl | bcc | bcs | beq | bit | bmi | bne | bpl | brk | bvc | bvs | clc | cld | cli
  | clv | cmp | cpx | cpy | dec | dex | dey | eor | inc | inx | iny | jmp | jsr | lda | ldx | ldy
  | lsr | nop | ora | pha | php | pla | plp | rol | ror | rti | rts | sbc | sec | sed | sei | sta
  | stx | sty | tax | tay | tsx | txa | txs | tya
  -- The undocumented operations of the 6502.
  | anc | ane | arr | asr | dcp | isb | jam | las | lax | lxa | rla | rra | sax | sbx | sha | shs
  | shx | shy | slo | sre
  -- The operations that the 65C02 adds.
  | bra | phx | phy | plx | ply | stz | trb | tsb | rmb0 | rmb1 | rmb2 | rmb3 | rmb4 | rmb5
  | rmb6 | rmb7 | smb0 | smb1 | smb2 | smb3 | smb4 | smb5 | smb6 | smb7
  -- The operations that the 4502 adds.
  | asw | bsr | cle | cpz | dew | dez | inw | inz | ldz | map | neg | phw | phz | plz | row | see
  | tab | taz | tba | tsy | tys | tza
  deriving DecidableEq, Repr, Inhabited

namespace Mnemonic

/-- The written form. -/
def text : Mnemonic → String
  | adc => "ADC" | and => "AND" | asl => "ASL" | bcc => "BCC" | bcs => "BCS" | beq => "BEQ"
  | bit => "BIT" | bmi => "BMI" | bne => "BNE" | bpl => "BPL" | brk => "BRK" | bvc => "BVC"
  | bvs => "BVS" | clc => "CLC" | cld => "CLD" | cli => "CLI" | clv => "CLV" | cmp => "CMP"
  | cpx => "CPX" | cpy => "CPY" | dec => "DEC" | dex => "DEX" | dey => "DEY" | eor => "EOR"
  | inc => "INC" | inx => "INX" | iny => "INY" | jmp => "JMP" | jsr => "JSR" | lda => "LDA"
  | ldx => "LDX" | ldy => "LDY" | lsr => "LSR" | nop => "NOP" | ora => "ORA" | pha => "PHA"
  | php => "PHP" | pla => "PLA" | plp => "PLP" | rol => "ROL" | ror => "ROR" | rti => "RTI"
  | rts => "RTS" | sbc => "SBC" | sec => "SEC" | sed => "SED" | sei => "SEI" | sta => "STA"
  | stx => "STX" | sty => "STY" | tax => "TAX" | tay => "TAY" | tsx => "TSX" | txa => "TXA"
  | txs => "TXS" | tya => "TYA" | anc => "ANC" | ane => "ANE" | arr => "ARR" | asr => "ASR"
  | dcp => "DCP" | isb => "ISB" | jam => "JAM" | las => "LAS" | lax => "LAX" | lxa => "LXA"
  | rla => "RLA" | rra => "RRA" | sax => "SAX" | sbx => "SBX" | sha => "SHA" | shs => "SHS"
  | shx => "SHX" | shy => "SHY" | slo => "SLO" | sre => "SRE" | bra => "BRA" | phx => "PHX"
  | phy => "PHY" | plx => "PLX" | ply => "PLY" | stz => "STZ" | trb => "TRB" | tsb => "TSB"
  | rmb0 => "RMB0" | rmb1 => "RMB1" | rmb2 => "RMB2" | rmb3 => "RMB3" | rmb4 => "RMB4"
  | rmb5 => "RMB5" | rmb6 => "RMB6" | rmb7 => "RMB7" | smb0 => "SMB0" | smb1 => "SMB1"
  | smb2 => "SMB2" | smb3 => "SMB3" | smb4 => "SMB4" | smb5 => "SMB5" | smb6 => "SMB6"
  | smb7 => "SMB7" | asw => "ASW" | bsr => "BSR" | cle => "CLE" | cpz => "CPZ" | dew => "DEW"
  | dez => "DEZ" | inw => "INW" | inz => "INZ" | ldz => "LDZ" | map => "MAP" | neg => "NEG"
  | phw => "PHW" | phz => "PHZ" | plz => "PLZ" | row => "ROW" | see => "SEE" | tab => "TAB"
  | taz => "TAZ" | tba => "TBA" | tsy => "TSY" | tys => "TYS" | tza => "TZA"

/-- All operations. -/
def all : List Mnemonic :=
  [.adc, .and, .asl, .bcc, .bcs, .beq, .bit, .bmi, .bne, .bpl, .brk, .bvc, .bvs, .clc, .cld,
    .cli, .clv, .cmp, .cpx, .cpy, .dec, .dex, .dey, .eor, .inc, .inx, .iny, .jmp, .jsr, .lda,
    .ldx, .ldy, .lsr, .nop, .ora, .pha, .php, .pla, .plp, .rol, .ror, .rti, .rts, .sbc, .sec,
    .sed, .sei, .sta, .stx, .sty, .tax, .tay, .tsx, .txa, .txs, .tya, .anc, .ane, .arr, .asr,
    .dcp, .isb, .jam, .las, .lax, .lxa, .rla, .rra, .sax, .sbx, .sha, .shs, .shx, .shy, .slo,
    .sre, .bra, .phx, .phy, .plx, .ply, .stz, .trb, .tsb, .rmb0, .rmb1, .rmb2, .rmb3, .rmb4,
    .rmb5, .rmb6, .rmb7, .smb0, .smb1, .smb2, .smb3, .smb4, .smb5, .smb6, .smb7, .asw, .bsr,
    .cle, .cpz, .dew, .dez, .inw, .inz, .ldz, .map, .neg, .phw, .phz, .plz, .row, .see, .tab,
    .taz, .tba, .tsy, .tys, .tza]

/-- The operation written with some characters, which may be of either case. -/
def ofText? (cs : List Char) : Option Mnemonic :=
  let capitals := cs.map Char.toUpper
  all.find? fun m => m.text.toList == capitals

/-- Whether the operation moves control to the address of its operand. -/
def isJump : Mnemonic → Bool
  | jmp | jsr => true
  | _ => false

/-- The branch on the opposite condition. A branch that is always taken has none. -/
def inverse? : Mnemonic → Option Mnemonic
  | bcc => some bcs
  | bcs => some bcc
  | beq => some bne
  | bne => some beq
  | bmi => some bpl
  | bpl => some bmi
  | bvc => some bvs
  | bvs => some bvc
  | _ => none

end Mnemonic
end Assembler6502
