-- What can be wrong with a program, and the code under which each fault is documented.
namespace RustContracts

-- The class of a fault. Every fault ends the compilation that met it.
inductive FaultKind where
  | syntaxError
  | unsupportedType
  | unsupportedNumSize
  | unsupportedMessageType
  | unexpectedExpression
  | invalidFunctionType
  | constructorNotFound
  | invalidModifier
  | notStateVariable
  | invalidMapping
  | mappingInit
  | linearizationFailed
  | ioError
  | formatError
  -- a class that this compiler never reports itself
  | other (name : String)
deriving DecidableEq, Inhabited

namespace FaultKind

-- The classes that have a code, with the name under which they are shown, the code and what the
-- code means. Codes E01xx are for parsing, E02xx for types, E03xx for expressions, E04xx for the
-- structure of contracts, E05xx for storage, E09xx for files and tools.
def catalogue : List (FaultKind × String × String × String) :=
  [(syntaxError, "SyntaxError", "E0100", "Source is not valid Solidity"),
   (unsupportedType, "UnsupportedType", "E0200",
    "Solidity construct has no mapping in the selected backend"),
   (unsupportedNumSize, "UnsupportedNumSize", "E0201",
    "Integer width or literal value is not representable by the backend"),
   (unsupportedMessageType, "UnsupportedMessageType", "E0202",
    "Revert message or environment value is not supported"),
   (unexpectedExpression, "UnexpectedExpression", "E0300",
    "Expression has a different shape than required here"),
   (invalidFunctionType, "InvalidFunctionType", "E0400",
    "Function kind is not valid in this position"),
   (constructorNotFound, "ConstructorNotFound", "E0401", "Base constructor is not declared"),
   (invalidModifier, "InvalidModifier", "E0402",
    "Modifier must resolve to exactly one implementation"),
   (linearizationFailed, "LinearizationFailed", "E0403",
    "Inheritance graph has no consistent linearization"),
   (notStateVariable, "NotStateVariable", "E0500",
    "Identifier is not a local variable or state variable"),
   (invalidMapping, "InvalidMapping", "E0501", "Mapping accessed with the wrong shape"),
   (mappingInit, "MappingInit", "E0502", "Mapping state variables cannot be initialized"),
   (ioError, "IOError", "E0900", "File could not be read or written"),
   (formatError, "FormatError", "E0901", "Generated code could not be formatted")]

-- The name under which a class is shown.
def name : FaultKind → String
  | other n => n
  | k => ((catalogue.find? (·.1 = k)).map (·.2.1)).getD ""

-- The class with the given name.
def ofName (n : String) : FaultKind :=
  ((catalogue.find? (·.2.1 = n)).map (·.1)).getD (other n)

-- The code of a class, empty for one without documentation.
def code (k : FaultKind) : String :=
  ((catalogue.find? (·.1 = k)).map (·.2.2.1)).getD ""

-- What a code means, for a reader.
def describe (code : String) : String :=
  ((catalogue.find? (·.2.2.1 = code)).map (·.2.2.2)).getD "Unknown error"

end FaultKind

end RustContracts
