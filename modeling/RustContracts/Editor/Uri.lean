import RustContracts.Editor.Address
import RustContracts.Text.Quoted

-- The path in a URI.
namespace RustContracts.Editor.Uri

open Text (bytesOf)

inductive UriError where
  | controlCharacter
  | missingScheme
  | colonInFirstSegment
  | missingBracket
  | badLiteral
  | badAddress (address : List UInt8) (e : Address.AddressError)
  | badPort (port : String)
  | badUser
  | badEscape (bytes : List UInt8)
  | badHostCharacter (c : Char)

def UriError.message : UriError → String
  | controlCharacter => "net/url: invalid control character in URL"
  | missingScheme => "missing protocol scheme"
  | colonInFirstSegment => "first path segment in URL cannot contain colon"
  | missingBracket => "missing ']' in host"
  | badLiteral => "invalid IP-literal"
  | badAddress address e => "invalid host: " ++ e.message address
  | badPort port => "invalid port " ++ Text.quoted port ++ " after host"
  | badUser => "net/url: invalid userinfo"
  | badEscape bytes => "invalid URL escape " ++ Text.quotedBytes bytes
  | badHostCharacter c => "invalid character " ++ Text.quoted c.toString ++ " in host name"

def hexValue? (c : Char) : Option Nat :=
  if c.isDigit then some (c.toNat - '0'.toNat)
  else if 'a' ≤ c ∧ c ≤ 'f' then some (c.toNat - 'a'.toNat + 10)
  else if 'A' ≤ c ∧ c ≤ 'F' then some (c.toNat - 'A'.toNat + 10)
  else none

-- Which part of a URI a text is.
inductive Part where
  | host
  | zone
  | other
deriving DecidableEq

-- The characters that a host can hold as they are.
def isHostChar (c : Char) : Bool :=
  c.isAlphanum || "!$&'()*+,;=:[]<>\"-_.~".toList.contains c

-- Whether an escape may stand in a part. In a host only bytes outside ASCII are escaped, and the percent
-- sign itself; in a zone also characters that a host can hold, and blanks.
def allowsEscape (part : Part) (byte : Nat) : Bool :=
  match part with
  | .other => true
  | .host => 0x80 ≤ byte || byte == 0x25
  | .zone => byte == 0x25 || byte == 0x20 || (byte < 0x80 && isHostChar (Char.ofNat byte))

-- The bytes of a text with its escapes replaced.
def unescape (part : Part) : List Char → Except UriError (List UInt8)
  | [] => .ok []
  | '%' :: a :: b :: rest =>
    match hexValue? a, hexValue? b with
    | some high, some low =>
      let byte := 16 * high + low
      if allowsEscape part byte then do
        return UInt8.ofNat byte :: (← unescape part rest)
      else .error (.badEscape (bytesOf ['%', a, b]))
    | _, _ => .error (.badEscape ((bytesOf ('%' :: a :: b :: rest)).take 3))
  | '%' :: rest => .error (.badEscape ((bytesOf ('%' :: rest)).take 3))
  | c :: rest =>
    if part != .other && c.toNat < 0x80 && !isHostChar c then .error (.badHostCharacter c)
    else do return bytesOf [c] ++ (← unescape part rest)

-- What stands before and behind the first character of a kind.
def cut (sep : Char) (cs : List Char) : List Char × List Char :=
  (cs.takeWhile (· != sep), (cs.dropWhile (· != sep)).drop 1)

-- What stands before and behind the last character of a kind, if there is one.
def cutLast? (sep : Char) (cs : List Char) : Option (List Char × List Char) :=
  if cs.contains sep then
    let behind := (cs.reverse.takeWhile (· != sep)).reverse
    some (cs.take (cs.length - behind.length - 1), behind)
  else none

def isSchemeChar (c : Char) : Bool :=
  c.isAlphanum || c == '+' || c == '-' || c == '.'

-- Whether a URI has a scheme, and what follows it.
def splitScheme (cs : List Char) : Except UriError (Bool × List Char) :=
  match cs with
  | ':' :: _ => .error .missingScheme
  | c :: _ =>
    if c.isAlpha then
      match cs.dropWhile isSchemeChar with
      | ':' :: rest => .ok (true, rest)
      | _ => .ok (false, cs)
    else .ok (false, cs)
  | [] => .ok (false, [])

def checkPort (port : List Char) : Except UriError Unit :=
  match port with
  | [] => .ok ()
  | ':' :: digits =>
    if digits.all Char.isDigit then .ok () else .error (.badPort (String.ofList port))
  | _ => .error (.badPort (String.ofList port))

-- What stands before the first `%25`, and from there on, if there is one.
def splitZone? : List Char → Option (List Char × List Char)
  | '%' :: '2' :: '5' :: rest => some ([], '%' :: '2' :: '5' :: rest)
  | c :: rest => (splitZone? rest).map fun (a, b) => (c :: a, b)
  | [] => none

-- The bytes of what stands between brackets. From its zone on, more may be escaped.
def unescapeAddress (address : List Char) : Except UriError (List UInt8) :=
  match splitZone? address with
  | some (before, zone) => do
    return (← unescape .host before) ++ (← unescape .zone zone)
  | none => unescape .host address

-- In brackets stands an address of groups, not one of octets.
def checkAddress (address : List UInt8) : Except UriError Unit :=
  match Address.form address with
  | .ok .groups => .ok ()
  | .ok .octets => .error .badLiteral
  | .error e => .error (.badAddress address e)

-- A host, perhaps with a port. Only the whole of a host can stand in brackets.
def checkHost (host : List Char) : Except UriError Unit := do
  match cutLast? '[' host with
  | some (_ :: _, _) => throw .badLiteral
  | some ([], inside) =>
    match cutLast? ']' inside with
    | none => throw .missingBracket
    | some (address, port) =>
      checkPort port
      checkAddress (← unescapeAddress address)
  | none =>
    match cutLast? ':' host with
    | some (_, port) => checkPort (':' :: port)
    | none => pure ()
    let _ ← unescape .host host

def isUserChar (c : Char) : Bool :=
  c.isAlphanum || "-._:~!$&'()*+,;=%@".toList.contains c

def checkUser (user : List Char) : Except UriError Unit := do
  if !user.all isUserChar then throw .badUser
  let (name, password) := cut ':' user
  let _ ← unescape .other name
  let _ ← unescape .other password

-- A host, perhaps with a user before it.
def checkAuthority (authority : List Char) : Except UriError Unit :=
  match cutLast? '@' authority with
  | none => checkHost authority
  | some (user, host) => do
    checkHost host
    checkUser user

-- The path of a URI without its fragment.
def pathWithoutFragment (uri : List Char) : Except UriError (List UInt8) := do
  if uri.any fun c => c.toNat < 0x20 || c.toNat = 0x7f then throw .controlCharacter
  if uri = ['*'] then return bytesOf uri
  let (hasScheme, rest) ← splitScheme uri
  let rest := (cut '?' rest).1
  match rest with
  | '/' :: '/' :: behind =>
    if !hasScheme && behind.head? = some '/' then unescape .other rest
    else
      checkAuthority (behind.takeWhile (· != '/'))
      unescape .other (behind.dropWhile (· != '/'))
  | '/' :: _ => unescape .other rest
  | _ =>
    if hasScheme then return []
    if ((cut '/' rest).1).contains ':' then throw .colonInFirstSegment
    unescape .other rest

-- The path of a URI, as bytes. Queries are not looked at; a fragment has to be well-formed.
def path (uri : String) : Except String (List UInt8) :=
  let (before, fragment) := cut '#' uri.toList
  let failed (part : String) (e : UriError) : String :=
    "invalid URI " ++ uri ++ ": parse " ++ Text.quoted part ++ ": " ++ e.message
  match pathWithoutFragment before with
  | .error e => .error (failed (String.ofList before) e)
  | .ok bytes =>
    match unescape .other fragment with
    | .error e => .error (failed uri e)
    | .ok _ => .ok bytes

end RustContracts.Editor.Uri
