/-!
# Symbols

A symbol names a label. A global symbol is visible everywhere, a local one only in the scope that
defines it and in the scopes inside that. Local symbols are written with a leading underscore, which
is no part of their name.

## Main definitions

* `Symbol`: a global or a local name
* `Symbol.ofText`, `Symbol.text`: from and to the written form
-/

namespace Assembler6502

/-- The name of a label: visible everywhere, or in one scope only. -/
inductive Symbol where
  | global (name : String)
  | inScope (name : String)
  deriving DecidableEq, Repr, Inhabited

namespace Symbol

/-- One leading underscore makes a name local and is dropped. -/
def ofText (text : String) : Symbol :=
  match text.toList with
  | '_' :: name => .inScope (String.ofList name)
  | _ => .global text

/-- The name without the mark of a local symbol. -/
def name : Symbol → String
  | global name => name
  | inScope name => name

def isLocal : Symbol → Bool
  | global _ => false
  | inScope _ => true

/-- The written form. -/
def text : Symbol → String
  | global name => name
  | inScope name => "_" ++ name

end Symbol
end Assembler6502
