import RingCache.Settings

/-!
# Addresses and dialing

An address is a host and a port. The port may be written with needless zeros or
a plus sign in front, and means the same place then (`Endpoint.plain`). A dial
succeeds when somebody listens at the place and can be reached in time. One that
does not succeed says why: the address may have no port, or a port that is no
number of 16 bits, or there may be nobody.
-/
namespace RingCache.Endpoint

/-- The parts of an address before and after its last colon. -/
def split (address : String) : Option (List Char × List Char) :=
  let backwards := address.toList.reverse
  match backwards.dropWhile (· ≠ ':') with
  | [] => none
  | _ :: host => some (host.reverse, (backwards.takeWhile (· ≠ ':')).reverse)

/-- The number that a list of decimal digits, with or without a plus sign in
    front, stands for. -/
def number? (digits : List Char) : Option Nat :=
  let digits := match digits with
    | '+' :: rest => rest
    | all => all
  if digits.isEmpty then none
  else if digits.all (fun c => '0' ≤ c ∧ c ≤ '9') then
    some (digits.foldl (fun n c => 10 * n + (c.toNat - '0'.toNat)) 0)
  else none

/-- The port that the part after the last colon stands for. -/
def port? (digits : List Char) : Option Nat :=
  (number? digits).filter (· < Bytes.bound 2)

/-- An address with its port written plainly. Two addresses of the same place that
    differ in how they write the port become the same text; what is no address
    stays as it is. -/
def plain (address : String) : String :=
  match split address with
  | none => address
  | some (host, digits) =>
    match port? digits with
    | none => address
    | some port => String.ofList host ++ ":" ++ toString port

/-- Why nobody can be reached at an address. -/
def refusal (address : String) : String :=
  match split address with
  | none => "invalid socket address"
  | some (_, digits) =>
    match port? digits with
    | none => "invalid port value"
    | some _ => "Connection refused (os error 111)"

/-- The failure of dialing an address where nobody listens. -/
def refused (address : String) : Failure :=
  .network (.connectionFailed address (refusal address))

/-- The failure of a dial that took too long. -/
def late (address : String) : Failure :=
  .network (.connectionFailed address "connect timeout")

/-- What comes of dialing an address that takes some time to reach. The time that
    is allowed is never too short for an address that is reached at once. -/
def dial (listening : Bool) (options : DialOptions) (roundTrip : Time) (address : String) : Except Failure Unit :=
  if !listening then .error (refused address)
  else if options.connectTimeout < roundTrip then .error (late address)
  else .ok ()

end RingCache.Endpoint
