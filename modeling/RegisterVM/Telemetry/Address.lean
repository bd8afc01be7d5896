import RegisterVM.Text.Digits
/-!
# Listening addresses

An address is a host and a port, divided by the last colon. A host that contains colons itself
stands in brackets. The port is a number below 65536; without a host, all addresses of the machine
are meant.
-/

namespace RegisterVM.Telemetry

/-- Why an address cannot be listened on. -/
inductive AddressError where
  | missingPort (address : String)
  | tooManyColons (address : String)
  | missingBracket (address : String)
  | strayBracket (bracket : Char) (address : String)
  | invalidPort (port : String)
  | unknownPort (port : String)
  deriving DecidableEq, Repr

/-- The wording of a refusal. -/
def AddressError.message : AddressError → String
  | .missingPort address => "address " ++ address ++ ": missing port in address"
  | .tooManyColons address => "address " ++ address ++ ": too many colons in address"
  | .missingBracket address => "address " ++ address ++ ": missing ']' in address"
  | .strayBracket bracket address =>
      "address " ++ address ++ ": unexpected '" ++ String.singleton bracket ++ "' in address"
  | .invalidPort port => "address " ++ port ++ ": invalid port"
  | .unknownPort port => "lookup tcp/" ++ port ++ ": unknown port"

namespace Address

/-- Host and port of an address whose host stands in brackets; `rest` follows the opening
bracket. -/
def splitBracketed (address : String) (rest : List Char) : Except AddressError (String × String) :=
  let host := rest.takeWhile (· != ']')
  match rest.dropWhile (· != ']') with
  | [] => .error (.missingBracket address)
  | _ :: [] => .error (.missingPort address)
  | _ :: ':' :: port =>
      if port.contains ':' then .error (.tooManyColons address)
      else if host.contains '[' then .error (.strayBracket '[' address)
      else if port.contains '[' then .error (.strayBracket '[' address)
      else if port.contains ']' then .error (.strayBracket ']' address)
      else .ok (String.ofList host, String.ofList port)
  | _ :: after =>
      if after.contains ':' then .error (.tooManyColons address) else .error (.missingPort address)

/-- Host and port of an address. -/
def split (address : String) : Except AddressError (String × String) :=
  let chars := address.toList
  if !chars.contains ':' then .error (.missingPort address)
  else
    match chars with
    | '[' :: rest => splitBracketed address rest
    | _ =>
        let host := chars.takeWhile (· != ':')
        let port := (chars.dropWhile (· != ':')).drop 1
        if port.contains ':' then .error (.tooManyColons address)
        else if chars.contains '[' then .error (.strayBracket '[' address)
        else if chars.contains ']' then .error (.strayBracket ']' address)
        else .ok (String.ofList host, String.ofList port)

/-- The number of a port; an empty port is zero. -/
def portNumber (port : String) : Except AddressError Nat :=
  let (negative, digits) :=
    match port.toList with
    | '+' :: digits => (false, digits)
    | '-' :: digits => (true, digits)
    | digits => (false, digits)
  if !digits.all Char.isDigit then .error (.unknownPort port)
  else
    let n := digits.foldl (fun n c => n * 10 + (c.toNat - 48)) 0
    if 65535 < n || (negative && n != 0) then .error (.invalidPort port) else .ok n

/-- The address as it is bound. The machine picks the port `free` where none is asked for. -/
def bind (address : String) (free : Nat) : Except AddressError String := do
  let (host, port) ← split address
  let n ← portNumber port
  let shown := if host.isEmpty then "[::]"
    else if host.contains ':' then "[" ++ host ++ "]" else host
  return shown ++ ":" ++ Text.nat (if n = 0 then free else n)

end Address

end RegisterVM.Telemetry
