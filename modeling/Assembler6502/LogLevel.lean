import Assembler6502.Text.Numeral

/-!
# Log levels

How much the command line tells about its work. Every request for more detail goes one level up,
until there is nothing left to add. A log line names its level, and a terminal can show it safely:
the characters in it that would steer the terminal are spelled out.

## Main definitions

* `LogLevel`: the levels
* `LogLevel.ofVerbosity`: the level for a number of requests
* `LogLevel.line`: a log line
-/

namespace Assembler6502

/-- How much is logged. -/
inductive LogLevel where
  | warn
  | info
  | debug
  | trace
  deriving DecidableEq, Repr

namespace LogLevel

/-- The level for a number of requests for more detail. -/
def ofVerbosity : Nat → LogLevel
  | 0 => warn
  | 1 => info
  | 2 => debug
  | _ => trace

def text : LogLevel → String
  | warn => "warn"
  | info => "info"
  | debug => "debug"
  | trace => "trace"

/-- What log lines of a level start with, aligned to the right. -/
def tag : LogLevel → String
  | warn => " WARN"
  | info => " INFO"
  | debug => "DEBUG"
  | trace => "TRACE"

/-- The ASCII characters that steer a terminal: bell, backspace, form feed, escape and delete. The
characters that only move on in the text stay. -/
def terminalControls : List Nat :=
  [0x07, 0x08, 0x0c, 0x1b, 0x7f]

/-- A character as a log line shows it. -/
def escapeChar (c : Char) : String :=
  let n := c.toNat
  if terminalControls.contains n then "\\x" ++ Text.hexLower 2 n
  else if 0x80 ≤ n && n ≤ 0x9f then "\\u\x7b" ++ Text.hexLower 2 n ++ "\x7d"
  else c.toString

/-- A line that is logged at a level. -/
def line (level : LogLevel) (message : String) : String :=
  level.tag ++ " " ++ String.join (message.toList.map escapeChar) ++ "\n"

end LogLevel
end Assembler6502
