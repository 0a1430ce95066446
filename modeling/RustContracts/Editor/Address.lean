import RustContracts.Text.Quoted

-- The addresses that can stand between brackets in a URI, as bytes: eight groups of hexadecimal
-- digits, or four octets.
namespace RustContracts.Editor.Address

-- Why a text is no address. `rest` is the text from the fault on.
inductive AddressError where
  | unknownForm
  | missingAddress
  | emptyZone
  | leadingZero
  | octetTooLarge
  | emptyOctet (rest : List UInt8)
  | tooManyOctets
  | strayByte (rest : List UInt8)
  | tooFewOctets
  | groupTooLong (rest : List UInt8)
  | emptyGroup (rest : List UInt8)
  | octetsTooEarly (rest : List UInt8)
  | noRoomForOctets (rest : List UInt8)
  | missingColon (rest : List UInt8)
  | endsInColon (rest : List UInt8)
  | secondGap (rest : List UInt8)
  | trailing (rest : List UInt8)
  | tooFewGroups
  | emptyGap
deriving DecidableEq

-- What is wrong, and the place if one is shown.
def AddressError.reason : AddressError → String × List UInt8
  | unknownForm => ("unable to parse IP", [])
  | missingAddress => ("missing IPv6 address", [])
  | emptyZone => ("zone must be a non-empty string", [])
  | leadingZero => ("IPv4 field has octet with leading zero", [])
  | octetTooLarge => ("IPv4 field has value >255", [])
  | emptyOctet rest => ("IPv4 field must have at least one digit", rest)
  | tooManyOctets => ("IPv4 address too long", [])
  | strayByte rest => ("unexpected character", rest)
  | tooFewOctets => ("IPv4 address too short", [])
  | groupTooLong rest => ("each group must have 4 or fewer digits", rest)
  | emptyGroup rest => ("each colon-separated field must have at least one digit", rest)
  | octetsTooEarly rest =>
    ("embedded IPv4 address must replace the final 2 fields of the address", rest)
  | noRoomForOctets rest =>
    ("too many hex fields to fit an embedded IPv4 at the end of the address", rest)
  | missingColon rest => ("unexpected character, want colon", rest)
  | endsInColon rest => ("colon must be followed by more characters", rest)
  | secondGap rest => ("multiple :: in address", rest)
  | trailing rest => ("trailing garbage after address", rest)
  | tooFewGroups => ("address string too short", [])
  | emptyGap => ("the :: must expand to at least one field of zeros", [])

-- What is said of the text `address`.
def AddressError.message (address : List UInt8) (e : AddressError) : String :=
  let (what, rest) := e.reason
  let place := if rest.isEmpty then "" else " (at " ++ Text.quotedBytes rest ++ ")"
  "ParseAddr(" ++ Text.quotedBytes address ++ "): " ++ what ++ place

inductive Form where
  | octets
  | groups
deriving DecidableEq

def dot : UInt8 := 0x2e
def colon : UInt8 := 0x3a
def percent : UInt8 := 0x25

def isDigit (b : UInt8) : Bool := 0x30 ≤ b && b ≤ 0x39

def isHexDigit (b : UInt8) : Bool :=
  isDigit b || (0x61 ≤ b && b ≤ 0x66) || (0x41 ≤ b && b ≤ 0x46)

-- Octets up to the end of the text. `dots` dots have been read, and of the octet behind the last of
-- them the digits with the value `octet?`.
def checkOctets (dots : Nat) (octet? : Option Nat) : List UInt8 → Except AddressError Unit
  | [] => if dots < 3 then .error .tooFewOctets else .ok ()
  | b :: rest =>
    if isDigit b then
      let octet := 10 * octet?.getD 0 + (b.toNat - 0x30)
      if octet? = some 0 then .error .leadingZero
      else if 255 < octet then .error .octetTooLarge
      else checkOctets dots (some octet) rest
    else if b = dot then
      if octet?.isNone || rest.isEmpty then .error (.emptyOctet (b :: rest))
      else if dots = 3 then .error .tooManyOctets
      else checkOctets (dots + 1) none rest
    else .error (.strayByte (b :: rest))

-- The end of the groups, with room for `room` more. A gap stands for one group or more.
def checkEnd (gap : Bool) (room : Nat) (rest : List UInt8) : Except AddressError Unit :=
  if !rest.isEmpty then .error (.trailing rest)
  else if gap && room = 0 then .error .emptyGap
  else if !gap && 0 < room then .error .tooFewGroups
  else .ok ()

-- At most as many groups as there is room for. Between two of them stands a colon, or once a double
-- one for the gap; the last two can be written as octets.
def checkGroups (gap : Bool) : Nat → List UInt8 → Except AddressError Unit
  | 0, text => checkEnd gap 0 text
  | room + 1, text =>
    let digits := text.takeWhile isHexDigit
    let rest := text.drop digits.length
    if 4 < digits.length then .error (.groupTooLong text)
    else if digits.isEmpty then .error (.emptyGroup text)
    else
      match rest with
      | [] => checkEnd gap room []
      | b :: behind =>
        if b = dot then
          if !gap && room ≠ 1 then .error (.octetsTooEarly text)
          else if room = 0 then .error (.noRoomForOctets text)
          else do
            checkOctets 0 none text
            checkEnd gap (room - 1) []
        else if b ≠ colon then .error (.missingColon rest)
        else
          match behind with
          | [] => .error (.endsInColon rest)
          | c :: next =>
            if c ≠ colon then checkGroups gap room behind
            else if gap then .error (.secondGap behind)
            else if next.isEmpty then checkEnd true room []
            else checkGroups true room next

-- Eight groups, perhaps with a zone behind a percent sign.
def checkZoned (text : List UInt8) : Except AddressError Unit :=
  let address := text.takeWhile (· != percent)
  if text.drop address.length = [percent] then .error .emptyZone
  else
    match address with
    | b :: c :: rest =>
      if b = colon && c = colon then
        if rest.isEmpty then .ok () else checkGroups true 8 rest
      else checkGroups false 8 address
    | _ => checkGroups false 8 address

-- How an address is written: the first dot, colon or percent sign tells.
def form (text : List UInt8) : Except AddressError Form :=
  match text.find? fun b => b == dot || b == colon || b == percent with
  | none => .error .unknownForm
  | some b =>
    if b = dot then do
      checkOctets 0 none text
      return .octets
    else if b = colon then do
      checkZoned text
      return .groups
    else .error .missingAddress

end RustContracts.Editor.Address
