import Assembler6502.Mode
import Assembler6502.Mnemonic

/-!
# Encodings

An encoding gives the opcode of an operation in an addressing mode. The processors of the family
share the documented encodings of the 6502 and differ in what they add to them; additions come as
sets, and no two encodings of one processor clash.

## Main definitions

* `Encoding`: an operation, an addressing mode and their opcode
* `Encoding.documented`, `Encoding.undocumented`: the two sets of the 6502
* `Encoding.added65C02`, `Encoding.added4502`: what the successors add
-/

namespace Assembler6502

/-- The opcode of an operation in an addressing mode. -/
structure Encoding where
  mnemonic : Mnemonic
  mode : Mode
  opcode : UInt8
  deriving DecidableEq, Repr

namespace Encoding

/-- The documented encodings of the 6502. -/
def documented : List Encoding := [
    ⟨.adc, .immediate, 0x69⟩, ⟨.adc, .zeroPage, 0x65⟩, ⟨.adc, .zeroPageX, 0x75⟩,
    ⟨.adc, .absolute, 0x6d⟩, ⟨.adc, .absoluteX, 0x7d⟩, ⟨.adc, .absoluteY, 0x79⟩,
    ⟨.adc, .zeroPageIndexedIndirect, 0x61⟩, ⟨.adc, .zeroPageIndirectIndexed, 0x71⟩,
    ⟨.and, .immediate, 0x29⟩, ⟨.and, .zeroPage, 0x25⟩, ⟨.and, .zeroPageX, 0x35⟩,
    ⟨.and, .absolute, 0x2d⟩, ⟨.and, .absoluteX, 0x3d⟩, ⟨.and, .absoluteY, 0x39⟩,
    ⟨.and, .zeroPageIndexedIndirect, 0x21⟩, ⟨.and, .zeroPageIndirectIndexed, 0x31⟩,
    ⟨.asl, .implied, 0x0a⟩, ⟨.asl, .zeroPage, 0x06⟩, ⟨.asl, .zeroPageX, 0x16⟩,
    ⟨.asl, .absolute, 0x0e⟩, ⟨.asl, .absoluteX, 0x1e⟩, ⟨.bcc, .relative, 0x90⟩,
    ⟨.bcs, .relative, 0xb0⟩, ⟨.beq, .relative, 0xf0⟩, ⟨.bit, .zeroPage, 0x24⟩,
    ⟨.bit, .absolute, 0x2c⟩, ⟨.bmi, .relative, 0x30⟩, ⟨.bne, .relative, 0xd0⟩,
    ⟨.bpl, .relative, 0x10⟩, ⟨.brk, .implied, 0x00⟩, ⟨.bvc, .relative, 0x50⟩,
    ⟨.bvs, .relative, 0x70⟩, ⟨.clc, .implied, 0x18⟩, ⟨.cld, .implied, 0xd8⟩,
    ⟨.cli, .implied, 0x58⟩, ⟨.clv, .implied, 0xb8⟩, ⟨.cmp, .immediate, 0xc9⟩,
    ⟨.cmp, .zeroPage, 0xc5⟩, ⟨.cmp, .zeroPageX, 0xd5⟩, ⟨.cmp, .absolute, 0xcd⟩,
    ⟨.cmp, .absoluteX, 0xdd⟩, ⟨.cmp, .absoluteY, 0xd9⟩, ⟨.cmp, .zeroPageIndexedIndirect, 0xc1⟩,
    ⟨.cmp, .zeroPageIndirectIndexed, 0xd1⟩, ⟨.cpx, .immediate, 0xe0⟩, ⟨.cpx, .zeroPage, 0xe4⟩,
    ⟨.cpx, .absolute, 0xec⟩, ⟨.cpy, .immediate, 0xc0⟩, ⟨.cpy, .zeroPage, 0xc4⟩,
    ⟨.cpy, .absolute, 0xcc⟩, ⟨.dec, .zeroPage, 0xc6⟩, ⟨.dec, .zeroPageX, 0xd6⟩,
    ⟨.dec, .absolute, 0xce⟩, ⟨.dec, .absoluteX, 0xde⟩, ⟨.dex, .implied, 0xca⟩,
    ⟨.dey, .implied, 0x88⟩, ⟨.eor, .immediate, 0x49⟩, ⟨.eor, .zeroPage, 0x45⟩,
    ⟨.eor, .zeroPageX, 0x55⟩, ⟨.eor, .absolute, 0x4d⟩, ⟨.eor, .absoluteX, 0x5d⟩,
    ⟨.eor, .absoluteY, 0x59⟩, ⟨.eor, .zeroPageIndexedIndirect, 0x41⟩,
    ⟨.eor, .zeroPageIndirectIndexed, 0x51⟩, ⟨.inc, .zeroPage, 0xe6⟩, ⟨.inc, .zeroPageX, 0xf6⟩,
    ⟨.inc, .absolute, 0xee⟩, ⟨.inc, .absoluteX, 0xfe⟩, ⟨.inx, .implied, 0xe8⟩,
    ⟨.iny, .implied, 0xc8⟩, ⟨.jmp, .absolute, 0x4c⟩, ⟨.jmp, .indirect, 0x6c⟩,
    ⟨.jsr, .absolute, 0x20⟩, ⟨.lda, .immediate, 0xa9⟩, ⟨.lda, .zeroPage, 0xa5⟩,
    ⟨.lda, .zeroPageX, 0xb5⟩, ⟨.lda, .absolute, 0xad⟩, ⟨.lda, .absoluteX, 0xbd⟩,
    ⟨.lda, .absoluteY, 0xb9⟩, ⟨.lda, .zeroPageIndexedIndirect, 0xa1⟩,
    ⟨.lda, .zeroPageIndirectIndexed, 0xb1⟩, ⟨.ldx, .immediate, 0xa2⟩, ⟨.ldx, .zeroPage, 0xa6⟩,
    ⟨.ldx, .zeroPageY, 0xb6⟩, ⟨.ldx, .absolute, 0xae⟩, ⟨.ldx, .absoluteY, 0xbe⟩,
    ⟨.ldy, .immediate, 0xa0⟩, ⟨.ldy, .zeroPage, 0xa4⟩, ⟨.ldy, .zeroPageX, 0xb4⟩,
    ⟨.ldy, .absolute, 0xac⟩, ⟨.ldy, .absoluteX, 0xbc⟩, ⟨.lsr, .implied, 0x4a⟩,
    ⟨.lsr, .zeroPage, 0x46⟩, ⟨.lsr, .zeroPageX, 0x56⟩, ⟨.lsr, .absolute, 0x4e⟩,
    ⟨.lsr, .absoluteX, 0x5e⟩, ⟨.nop, .implied, 0xea⟩, ⟨.ora, .immediate, 0x09⟩,
    ⟨.ora, .zeroPage, 0x05⟩, ⟨.ora, .zeroPageX, 0x15⟩, ⟨.ora, .absolute, 0x0d⟩,
    ⟨.ora, .absoluteX, 0x1d⟩, ⟨.ora, .absoluteY, 0x19⟩, ⟨.ora, .zeroPageIndexedIndirect, 0x01⟩,
    ⟨.ora, .zeroPageIndirectIndexed, 0x11⟩, ⟨.pha, .implied, 0x48⟩, ⟨.php, .implied, 0x08⟩,
    ⟨.pla, .implied, 0x68⟩, ⟨.plp, .implied, 0x28⟩, ⟨.rol, .implied, 0x2a⟩,
    ⟨.rol, .zeroPage, 0x26⟩, ⟨.rol, .zeroPageX, 0x36⟩, ⟨.rol, .absolute, 0x2e⟩,
    ⟨.rol, .absoluteX, 0x3e⟩, ⟨.ror, .implied, 0x6a⟩, ⟨.ror, .zeroPage, 0x66⟩,
    ⟨.ror, .zeroPageX, 0x76⟩, ⟨.ror, .absolute, 0x6e⟩, ⟨.ror, .absoluteX, 0x7e⟩,
    ⟨.rti, .implied, 0x40⟩, ⟨.rts, .implied, 0x60⟩, ⟨.sbc, .immediate, 0xe9⟩,
    ⟨.sbc, .zeroPage, 0xe5⟩, ⟨.sbc, .zeroPageX, 0xf5⟩, ⟨.sbc, .absolute, 0xed⟩,
    ⟨.sbc, .absoluteX, 0xfd⟩, ⟨.sbc, .absoluteY, 0xf9⟩, ⟨.sbc, .zeroPageIndexedIndirect, 0xe1⟩,
    ⟨.sbc, .zeroPageIndirectIndexed, 0xf1⟩, ⟨.sec, .implied, 0x38⟩, ⟨.sed, .implied, 0xf8⟩,
    ⟨.sei, .implied, 0x78⟩, ⟨.sta, .zeroPage, 0x85⟩, ⟨.sta, .zeroPageX, 0x95⟩,
    ⟨.sta, .absolute, 0x8d⟩, ⟨.sta, .absoluteX, 0x9d⟩, ⟨.sta, .absoluteY, 0x99⟩,
    ⟨.sta, .zeroPageIndexedIndirect, 0x81⟩, ⟨.sta, .zeroPageIndirectIndexed, 0x91⟩,
    ⟨.stx, .zeroPage, 0x86⟩, ⟨.stx, .zeroPageY, 0x96⟩, ⟨.stx, .absolute, 0x8e⟩,
    ⟨.sty, .zeroPage, 0x84⟩, ⟨.sty, .zeroPageX, 0x94⟩, ⟨.sty, .absolute, 0x8c⟩,
    ⟨.tax, .implied, 0xaa⟩, ⟨.tay, .implied, 0xa8⟩, ⟨.tsx, .implied, 0xba⟩,
    ⟨.txa, .implied, 0x8a⟩, ⟨.txs, .implied, 0x9a⟩, ⟨.tya, .implied, 0x98⟩]

/-- Operations that read a cell, change it, write it back and then use it: each combines two
documented operations, and all have the same layout relative to a base opcode. -/
def combined (mnemonic : Mnemonic) (base : UInt8) : List Encoding := [
    ⟨mnemonic, .zeroPage, base + 0x07⟩, ⟨mnemonic, .zeroPageX, base + 0x17⟩,
    ⟨mnemonic, .absolute, base + 0x0f⟩, ⟨mnemonic, .absoluteX, base + 0x1f⟩,
    ⟨mnemonic, .absoluteY, base + 0x1b⟩, ⟨mnemonic, .zeroPageIndexedIndirect, base + 0x03⟩,
    ⟨mnemonic, .zeroPageIndirectIndexed, base + 0x13⟩]

/-- The undocumented encodings of the 6502. -/
def undocumented : List Encoding := [
    ⟨.anc, .immediate, 0x0b⟩, ⟨.ane, .immediate, 0x8b⟩, ⟨.arr, .immediate, 0x6b⟩,
    ⟨.asr, .immediate, 0x4b⟩, ⟨.jam, .implied, 0x02⟩, ⟨.las, .absoluteY, 0xbb⟩,
    ⟨.lax, .zeroPage, 0xa7⟩, ⟨.lax, .zeroPageY, 0xb7⟩, ⟨.lax, .absolute, 0xaf⟩,
    ⟨.lax, .absoluteY, 0xbf⟩, ⟨.lax, .zeroPageIndexedIndirect, 0xa3⟩,
    ⟨.lax, .zeroPageIndirectIndexed, 0xb3⟩, ⟨.lxa, .immediate, 0xab⟩, ⟨.sax, .zeroPage, 0x87⟩,
    ⟨.sax, .zeroPageY, 0x97⟩, ⟨.sax, .absolute, 0x8f⟩, ⟨.sax, .zeroPageIndexedIndirect, 0x83⟩,
    ⟨.sbx, .immediate, 0xcb⟩, ⟨.sha, .absoluteY, 0x9f⟩, ⟨.sha, .zeroPageIndirectIndexed, 0x93⟩,
    ⟨.shs, .absoluteY, 0x9b⟩, ⟨.shx, .absoluteY, 0x9e⟩, ⟨.shy, .absoluteX, 0x9c⟩]
  ++ combined .slo 0x00 ++ combined .rla 0x20 ++ combined .sre 0x40
  ++ combined .rra 0x60 ++ combined .dcp 0xc0 ++ combined .isb 0xe0

/-- What the 65C02 adds to the documented encodings. -/
def added65C02 : List Encoding := [
    ⟨.adc, .zeroPageIndirect, 0x72⟩, ⟨.and, .zeroPageIndirect, 0x32⟩, ⟨.bit, .immediate, 0x89⟩,
    ⟨.bit, .zeroPageX, 0x34⟩, ⟨.bit, .absoluteX, 0x3c⟩, ⟨.bra, .relative, 0x80⟩,
    ⟨.cmp, .zeroPageIndirect, 0xd2⟩, ⟨.dec, .implied, 0x3a⟩, ⟨.eor, .zeroPageIndirect, 0x52⟩,
    ⟨.inc, .implied, 0x1a⟩, ⟨.jmp, .indexedIndirect, 0x7c⟩, ⟨.lda, .zeroPageIndirect, 0xb2⟩,
    ⟨.ora, .zeroPageIndirect, 0x12⟩, ⟨.phx, .implied, 0xda⟩, ⟨.phy, .implied, 0x5a⟩,
    ⟨.plx, .implied, 0xfa⟩, ⟨.ply, .implied, 0x7a⟩, ⟨.sbc, .zeroPageIndirect, 0xf2⟩,
    ⟨.sta, .zeroPageIndirect, 0x92⟩, ⟨.stz, .zeroPage, 0x64⟩, ⟨.stz, .zeroPageX, 0x74⟩,
    ⟨.stz, .absolute, 0x9c⟩, ⟨.stz, .absoluteX, 0x9e⟩, ⟨.trb, .zeroPage, 0x14⟩,
    ⟨.trb, .absolute, 0x1c⟩, ⟨.tsb, .zeroPage, 0x04⟩, ⟨.tsb, .absolute, 0x0c⟩,
    ⟨.rmb0, .zeroPage, 0x07⟩, ⟨.smb0, .zeroPage, 0x87⟩, ⟨.rmb1, .zeroPage, 0x17⟩,
    ⟨.smb1, .zeroPage, 0x97⟩, ⟨.rmb2, .zeroPage, 0x27⟩, ⟨.smb2, .zeroPage, 0xa7⟩,
    ⟨.rmb3, .zeroPage, 0x37⟩, ⟨.smb3, .zeroPage, 0xb7⟩, ⟨.rmb4, .zeroPage, 0x47⟩,
    ⟨.smb4, .zeroPage, 0xc7⟩, ⟨.rmb5, .zeroPage, 0x57⟩, ⟨.smb5, .zeroPage, 0xd7⟩,
    ⟨.rmb6, .zeroPage, 0x67⟩, ⟨.smb6, .zeroPage, 0xe7⟩, ⟨.rmb7, .zeroPage, 0x77⟩,
    ⟨.smb7, .zeroPage, 0xf7⟩]

/-- What the 4502 adds to the encodings of the 65C02. -/
def added4502 : List Encoding := [
    ⟨.asr, .implied, 0x43⟩, ⟨.asr, .zeroPage, 0x44⟩, ⟨.asr, .zeroPageX, 0x54⟩,
    ⟨.asw, .absolute, 0xcb⟩, ⟨.bsr, .relativeWord, 0x63⟩, ⟨.cle, .implied, 0x02⟩,
    ⟨.cpz, .immediate, 0xc2⟩, ⟨.cpz, .zeroPage, 0xd4⟩, ⟨.cpz, .absolute, 0xdc⟩,
    ⟨.dew, .zeroPage, 0xc3⟩, ⟨.dez, .implied, 0x3b⟩, ⟨.inw, .zeroPage, 0xe3⟩,
    ⟨.inz, .implied, 0x1b⟩, ⟨.jsr, .indirect, 0x22⟩, ⟨.jsr, .indexedIndirect, 0x23⟩,
    ⟨.ldz, .immediate, 0xa3⟩, ⟨.ldz, .absolute, 0xab⟩, ⟨.ldz, .absoluteX, 0xbb⟩,
    ⟨.map, .implied, 0x5c⟩, ⟨.neg, .implied, 0x42⟩, ⟨.phw, .immediateWord, 0xf4⟩,
    ⟨.phw, .absolute, 0xfc⟩, ⟨.phz, .implied, 0xdb⟩, ⟨.plz, .implied, 0xfb⟩,
    ⟨.row, .absolute, 0xeb⟩, ⟨.see, .implied, 0x03⟩, ⟨.stx, .absoluteY, 0x9b⟩,
    ⟨.sty, .absoluteX, 0x8b⟩, ⟨.tab, .implied, 0x5b⟩, ⟨.taz, .implied, 0x4b⟩,
    ⟨.tba, .implied, 0x7b⟩, ⟨.tsy, .implied, 0x0b⟩, ⟨.tys, .implied, 0x2b⟩, ⟨.tza, .implied, 0x6b⟩]

end Encoding
end Assembler6502
