import RouteScript.Uri

/-!
# Valid URI references

The grammar of URI references: a scheme, an authority, a path, a query and a fragment, of which
only the path is always there.
-/

namespace RouteScript.Uri

/-- Characters that never need an escape. -/
def isUnreserved (c : Char) : Bool := isAlphanumeric c || "-._~".toList.contains c

/-- Delimiters inside the parts of a URI. -/
def isSubDelim (c : Char) : Bool := "!$&'()*+,;=".toList.contains c

/-- Every character passes the test or belongs to an escape. -/
def escapedBy (test : Char → Bool) : Text → Bool
  | [] => true
  | '%' :: a :: b :: t => (hexValue? a).isSome && (hexValue? b).isSome && escapedBy test t
  | c :: t => c != '%' && test c && escapedBy test t

/-- A text of path segments. -/
def isPathText (t : Text) : Bool := escapedBy isPathChar t

/-- A query or a fragment. -/
def isQueryText (t : Text) : Bool := escapedBy (fun c => isPathChar c || c == '?') t

/-- A letter, and then letters, digits and `+`, `-`, `.`. -/
def isScheme : Text → Bool
  | [] => false
  | c :: t => c.isAlpha && t.all fun c => isAlphanumeric c || "+-.".toList.contains c

/-- A decimal number below 256 without leading zeros. -/
def isOctet (t : Text) : Bool :=
  !t.isEmpty && t.length ≤ 3 && t.all Char.isDigit && (t.length == 1 || t.head? != some '0')
    && t.foldl (fun n c => n * 10 + (c.toNat - 48)) 0 < 256

/-- Four octets. -/
def isIpv4 (t : Text) : Bool :=
  let parts := t.splitOn '.'
  parts.length == 4 && parts.all isOctet

/-- The number of 16-bit groups that a text of an address spells, if it is well-formed; only the
last of them may be an address of four octets. -/
def groupCount? (t : Text) : Option Nat :=
  if t.isEmpty then some 0
  else
    let parts := t.splitOn ':'
    let isGroup (g : Text) : Bool :=
      !g.isEmpty && g.length ≤ 4 && g.all fun c => (hexValue? c).isSome
    if parts.all isGroup then some parts.length
    else if parts.dropLast.all isGroup && parts.getLast?.any isIpv4 then some (parts.length + 1)
    else none

/-- The parts of an address around its first double colon. -/
def splitDouble : Text → Text × Option Text
  | [] => ([], none)
  | ':' :: ':' :: t => ([], some t)
  | c :: t =>
    let (before, after) := splitDouble t
    (c :: before, after)

/-- An address of eight groups, or of fewer around a double colon. -/
def isIpv6 (t : Text) : Bool :=
  match splitDouble t with
  | (all, none) => groupCount? all == some 8
  | (before, some after) =>
    match groupCount? before, groupCount? after with
    | some m, some n => m + n ≤ 7 && !before.contains '.'
    | _, _ => false

/-- An address in brackets, of version 6 or of a version yet to come. -/
def isIpLiteral (t : Text) : Bool :=
  match t with
  | v :: rest =>
    if v == 'v' || v == 'V' then
      let version := rest.takeWhile fun c => (hexValue? c).isSome
      match rest.dropWhile fun c => (hexValue? c).isSome with
      | '.' :: address => !version.isEmpty && !address.isEmpty
          && address.all fun c => isUnreserved c || isSubDelim c || c == ':'
      | _ => false
    else isIpv6 t
  | [] => false

/-- A host, perhaps with a colon and digits behind it. -/
def isEndpoint (t : Text) : Bool :=
  let isService (p : Text) : Bool := match p with
    | [] => true
    | ':' :: digits => digits.all Char.isDigit
    | _ => false
  match t with
  | '[' :: rest =>
    let address := rest.takeWhile (· != ']')
    match rest.dropWhile (· != ']') with
    | _ :: service => isIpLiteral address && isService service
    | [] => false
  | _ => escapedBy (fun c => isUnreserved c || isSubDelim c) (t.takeWhile (· != ':'))
      && isService (t.dropWhile (· != ':'))

/-- A host, perhaps with the user in front. -/
def isAuthority (t : Text) : Bool :=
  match (t.reverse.dropWhile (· != '@')).reverse with
  | [] => isEndpoint t
  | user => escapedBy (fun c => isUnreserved c || isSubDelim c || c == ':') user.dropLast
      && isEndpoint (t.drop user.length)

/-- What may stand between the scheme and the query. -/
def isHierarchy (t : Text) : Bool :=
  match t with
  | '/' :: '/' :: rest =>
    isAuthority (rest.takeWhile (· != '/')) && isPathText (rest.dropWhile (· != '/'))
  | _ => isPathText t

/-- The text is a URI or a relative reference. -/
def isReference (uri : String) : Bool :=
  let t := uri.toList
  let body := t.takeWhile (· != '#')
  let hierarchy := body.takeWhile (· != '?')
  isQueryText ((t.dropWhile (· != '#')).drop 1) && isQueryText ((body.dropWhile (· != '?')).drop 1)
    && (let first := hierarchy.takeWhile (· != '/')
        if first.contains ':' then
          isScheme (hierarchy.takeWhile (· != ':'))
            && isHierarchy ((hierarchy.dropWhile (· != ':')).drop 1)
        else isHierarchy hierarchy)

end RouteScript.Uri
