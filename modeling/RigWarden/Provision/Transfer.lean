import RigWarden.Provision.Install

/-!
# Transferring a release

A release is asked for once and read in pieces, with a look at clock and token before each read. It
is complete when the server ends it, and then as long as the server said it would be.
-/

namespace RigWarden.Provision

open Text Number

def reasons : List (Nat × String) := [
  (100, "Continue"), (101, "Switching Protocols"), (102, "Processing"), (200, "OK"),
  (201, "Created"), (202, "Accepted"), (203, "Non Authoritative Information"), (204, "No Content"),
  (205, "Reset Content"), (206, "Partial Content"), (207, "Multi-Status"), (208, "Already Reported"),
  (226, "IM Used"), (300, "Multiple Choices"), (301, "Moved Permanently"), (302, "Found"),
  (303, "See Other"), (304, "Not Modified"), (305, "Use Proxy"), (307, "Temporary Redirect"),
  (308, "Permanent Redirect"), (400, "Bad Request"), (401, "Unauthorized"),
  (402, "Payment Required"), (403, "Forbidden"), (404, "Not Found"), (405, "Method Not Allowed"),
  (406, "Not Acceptable"), (407, "Proxy Authentication Required"), (408, "Request Timeout"),
  (409, "Conflict"), (410, "Gone"), (411, "Length Required"), (412, "Precondition Failed"),
  (413, "Payload Too Large"), (414, "URI Too Long"), (415, "Unsupported Media Type"),
  (416, "Range Not Satisfiable"), (417, "Expectation Failed"), (418, "I'm a teapot"),
  (421, "Misdirected Request"), (422, "Unprocessable Entity"), (423, "Locked"),
  (424, "Failed Dependency"), (426, "Upgrade Required"), (428, "Precondition Required"),
  (429, "Too Many Requests"), (431, "Request Header Fields Too Large"),
  (451, "Unavailable For Legal Reasons"), (500, "Internal Server Error"), (501, "Not Implemented"),
  (502, "Bad Gateway"), (503, "Service Unavailable"), (504, "Gateway Timeout"),
  (505, "HTTP Version Not Supported"), (506, "Variant Also Negotiates"),
  (507, "Insufficient Storage"), (508, "Loop Detected"), (510, "Not Extended"),
  (511, "Network Authentication Required")]

/-- A status with its standard reason, whatever reason the server gave. -/
def statusText (status : Nat) : String :=
  decimal status ++ " " ++
    (((reasons.find? (·.1 == status)).map Prod.snd).getD "<unknown status code>")

def isSuccess (status : Nat) : Bool := 200 ≤ status && status < 300

/-- What a read brings. -/
inductive Piece where
  | bytes (bs : Bytes)
  | interrupted
  | timedOut
  | broken (text : String)
  deriving Repr, DecidableEq

inductive Answer where
  | timedOut
  | failed (text : String)
  /-- The server answers. Before each piece there is a look, and one before the end is found. -/
  | answered (status : Nat) (expected : Option Nat) (pieces : List (Look × Piece)) (last : Look)
  deriving Repr, DecidableEq

def outOfTime : Error := .timeout "download"

def readPieces (deadline : Clock) (last : Look) (received : Bytes) :
    List (Look × Piece) → Except Error Bytes
  | [] => do
    last.check deadline "download"
    return received
  | (look, piece) :: rest => do
    look.check deadline "download"
    match piece with
    | .bytes bs => readPieces deadline last (received ++ bs) rest
    | .interrupted => readPieces deadline last received rest
    | .timedOut => throw outOfTime
    | .broken text => throw (.network (.broken text))

def checkLength (expected : Option Nat) (received : Bytes) : Except Error Bytes :=
  match expected with
  | none => .ok received
  | some n =>
    if received.length = n then .ok received
    else .error (.network (.truncated received.length n))

/-- Transfers what a server has at `url`. Nothing is asked for when the first look forbids it. -/
def transfer (url : String) (deadline : Clock) (first : Look) (answer : Answer) :
    Except Error Bytes := do
  first.check deadline "download"
  match answer with
  | .timedOut => throw outOfTime
  | .failed text => throw (.network (.broken text))
  | .answered status expected pieces last =>
    if !isSuccess status then throw (.network (.refused (statusText status) url))
    checkLength expected (← readPieces deadline last [] pieces)

end RigWarden.Provision
