import RustContracts.Compile

-- Faults as an editor shows them.
namespace RustContracts.Editor

-- A place in a document; lines and characters count from zero, in the 32 bits that the protocol has for them.
structure Spot where
  line : UInt32 := 0
  character : UInt32 := 0
deriving DecidableEq

structure Marker where
  -- a fault without a place marks the start of the document
  start : Spot := {}
  stop : Spot := {}
  code : String
  message : String
deriving DecidableEq

namespace Marker

-- All markers are errors.
def severity : Nat := 1

def source : String := "sol2rs"

-- A fault with its notes and help behind the message.
def ofDiagnostic (d : Diagnostic) : Marker :=
  let extra := d.notes ++ (if d.help = "" then [] else ["help: " ++ d.help])
  let message := "\n".intercalate (d.message :: extra)
  if d.hasPosition then
    let line := UInt32.ofNat (d.place.line - 1).toNat
    let start := UInt32.ofNat (d.place.column - 1).toNat
    { start := ⟨line, start⟩
      stop := ⟨line, start + UInt32.ofNat (max d.length 1).toNat⟩
      code := d.code
      message := message }
  else { code := d.code, message := message }

end Marker

-- The markers of a document: none when it compiles for the target, one for its first fault otherwise. There is no
-- answer where the process dies.
def diagnose (file source target : String) : Option (List Marker) :=
  match Compile.compileWith Formatter.bareSystem file source target {} with
  | .ok _ => some []
  | .error (.fault d) => some [.ofDiagnostic d]
  | .error .overflow => none

end RustContracts.Editor
