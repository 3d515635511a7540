import RouteScript.Text.Basic

/-!
# Classes of pseudo-variables

The class of a pseudo-variable is the word after its dollar sign.  Each class the routing engine
knows belongs to one category; a class in no table is unknown and counts as `other`.
-/

namespace RouteScript

/-- The family of a pseudo-variable class. -/
inductive Category where
  | uri
  | network
  | message
  | time
  | transaction
  | header
  | scriptVariable
  | sharedVariable
  | hashTable
  | dialogVariable
  | other
deriving DecidableEq, Repr, Inhabited

namespace Category

/-- The name shown to the user. -/
def label : Category → String
  | uri => "URI"
  | network => "network"
  | message => "message"
  | time => "time"
  | transaction => "transaction"
  | header => "header"
  | scriptVariable => "script variable"
  | sharedVariable => "shared variable"
  | hashTable => "hash table"
  | dialogVariable => "dialog variable"
  | other => "other"

/-- Scripts assign values to classes of the category.  Hash tables are assigned too, but are
judged by table. -/
def isWritable : Category → Bool
  | scriptVariable | sharedVariable | dialogVariable => true
  | _ => false

/-- The value comes from the routing engine and not from the script. -/
def isBuiltin (c : Category) : Bool := !c.isWritable && c != hashTable

/-- The known classes of a category. -/
def classes : Category → List String
  | uri =>
    ["ru", "rU", "rd", "rp", "rP", "rz", "rt", "du", "fu", "fU", "fd", "fn", "ft", "tu", "tU",
    "td", "tn", "tt", "ou", "oU", "od", "op", "oP", "ruid", "ai", "adu", "pu", "pU", "pd", "pn",
    "re"]
  | network =>
    ["si", "sp", "sP", "Ri", "Rp", "RAi", "RAp", "Rn", "pr", "proto", "snd", "sndfrom", "sndto",
    "rcv", "sas", "conid"]
  | message =>
    ["rm", "rmid", "rs", "rr", "rb", "rv", "mb", "mbu", "ml", "mi", "mt", "ms", "mf", "mF", "ci",
    "cs", "ct", "ctu", "cT", "cl", "ua", "bs", "bR", "br", "bS", "bf", "bF", "sf", "sF", "ds",
    "hu"]
  | time => ["Ts", "TS", "Tf", "TF", "Tb", "TV", "time", "timef", "utimef"]
  | transaction =>
    ["T", "T_branch_idx", "T_reply_code", "T_reply_reason", "T_reply_last", "T_req", "T_rpl",
    "T_inv", "tm"]
  | header => ["hdr", "hdrc", "hdrcb", "hfl", "hflc"]
  | scriptVariable => ["var", "vz", "vn", "avp", "xavp", "xavu", "xavi"]
  | sharedVariable => ["shv"]
  | hashTable =>
    ["sht", "shtex", "shtcn", "shtcv", "shtinc", "shtdec", "shtitkey", "shtitval", "shtrecord"]
  | dialogVariable => ["dlg_var", "dlg", "dlg_ctx"]
  | other =>
    ["stat", "sel", "env", "envn", "def", "defn", "rand", "sruid", "cfg", "nh", "null", "via0",
    "via1", "msrp", "http_req", "tcp", "ltt"]

/-- All categories, in the order in which their classes are listed. -/
def all : List Category :=
  [uri, network, message, time, transaction, header, scriptVariable, sharedVariable, hashTable,
    dialogVariable, other]

/-- The category whose table holds the class. -/
def ofClass? (cls : String) : Option Category := all.find? fun c => c.classes.contains cls

/-- The category of a class, `other` for an unknown one. -/
def ofClass (cls : String) : Category := (ofClass? cls).getD other

/-- The class is in one of the tables. -/
def isKnown (cls : String) : Bool := (ofClass? cls).isSome

/-- The known classes with their categories, table by table. -/
def known : List (String × Category) :=
  all.flatMap fun c => c.classes.map fun cls => (cls, c)

end Category

end RouteScript
