import OssecHids.Lib.Buffer
import OssecHids.OsExecd.Request
import OssecHids.Shared.Merge

/-!
# Headers of messages

`cleanevent.c`: the location and the log of a message, the date in front of the log, and what the
header behind the date names. The header is cut in a copy of the log, at offsets into it.

- `dateFormat`: which date a log starts with;
- `syslogHeader`, `aslLoop`: the headers that name a host and a program;
- `osCleanMSGex`: the whole function.
-/

open CString Buffer

namespace CleanEvent

/-! ## Bytes -/

/-- `islower` in the C locale. -/
def isLower (b : UInt8) : Bool := 97 ≤ b && b ≤ 122

/-- `isalnum` in the C locale. -/
def isAlnum (b : UInt8) : Bool := isDigit b || (65 ≤ b && b ≤ 90) || isLower b

/-- `isValidChar(x) == 1`, of `hostname_map` -/
def isValidChar (b : UInt8) : Bool := isAlnum b || b ∈ lit "()-./@_"

/-- The test for a single byte. -/
def is (c : Char) (b : UInt8) : Bool := b == chr c

/-! ## Dates -/

/-- What a date is followed by. -/
inductive Follows
  | syslog
  | text
  | asl
  | squid
  deriving DecidableEq, Repr

/-- A date that is known by the bytes at some of its places: the log has more than `min` bytes, with
its terminator, and its text goes on `skip` bytes behind its start. -/
structure DateFormat where
  min : ℕ
  marks : List (ℕ × (UInt8 → Bool))
  skip : ℕ
  follows : Follows

/-- What is in front of the fraction of a second of an ISO date. -/
def isoMarks : List (ℕ × (UInt8 → Bool)) :=
  [(4, is '-'), (7, is '-'), (10, is 'T'), (13, is ':'), (16, is ':')]

/-- An ISO date with a fraction of a second, and the `:` of its zone at a place. -/
def isoFraction (colon skip : ℕ) : DateFormat where
  min := 33
  marks := isoMarks ++ [(19, fun b => b == chr '.' || b == chr ','), (colon, is ':')]
  skip := skip
  follows := .syslog

def squidMarks : List (ℕ × (UInt8 → Bool)) :=
  [(0, is '1'), (1, isDigit), (2, isDigit), (3, isDigit), (10, is '.'), (13, isDigit), (14, is ' ')]

/-- The dates, in the order in which they are looked for. -/
def dateFormats : List DateFormat := [
  -- Dec 29 10:00:01
  ⟨17, [(3, is ' '), (6, is ' '), (9, is ':'), (12, is ':'), (15, is ' ')], 16, .syslog⟩,
  -- 2015-04-16 21:51:02,805
  ⟨24, [(4, is '-'), (7, is '-'), (10, is ' '), (13, is ':'), (16, is ':'), (19, is ',')], 23,
    .syslog⟩,
  -- 2007-06-14T15:48:55-04:00
  ⟨33, isoMarks ++ [(22, is ':'), (25, is ' ')], 26, .syslog⟩,
  isoFraction 24 27, isoFraction 25 28, isoFraction 26 29, isoFraction 27 30, isoFraction 28 31,
  isoFraction 29 32,
  -- 2015 Dec 29 10:00:01
  ⟨21, [(0, isDigit), (4, is ' '), (8, is ' '), (11, is ' '), (14, is ':'), (17, is ':'),
    (20, is ' ')], 21, .syslog⟩,
  -- 2019:11:06-00:08:03
  ⟨20, [(0, isDigit), (4, is ':'), (7, is ':'), (10, is '-'), (13, is ':'), (16, is ':')], 20,
    .syslog⟩,
  -- xferlog
  ⟨28, [(3, is ' '), (7, is ' '), (10, is ' '), (13, is ':'), (16, is ':'), (19, is ' '),
    (24, is ' '), (26, is ' ')], 24, .text⟩,
  -- snort
  ⟨24, [(2, is '/'), (5, is '-'), (8, is ':'), (11, is ':'), (14, is '.'), (21, is ' ')], 23,
    .text⟩,
  -- suricata
  ⟨28, [(2, is '/'), (5, is '/'), (10, is '-'), (13, is ':'), (16, is ':'), (19, is '.'),
    (26, is ' ')], 28, .text⟩,
  -- apache
  ⟨27, [(0, is '['), (4, is ' '), (8, is ' '), (11, is ' '), (14, is ':'), (17, is ':'),
    (20, is ' '), (25, is ']')], 27, .text⟩,
  -- osx asl
  ⟨26, [(0, is '['), (1, is 'T'), (5, is ' '), (10, is '.'), (13, is '.'), (16, is ' '),
    (19, is ':')], 25, .asl⟩,
  ⟨32, squidMarks ++ [(21, is ' ')], 14, .squid⟩,
  ⟨32, squidMarks ++ [(22, is ' ')], 14, .squid⟩]

/-- `pieces[i] == c && pieces[j] == d && ...` -/
def checkMarks (pieces : Bytes) : List (ℕ × (UInt8 → Bool)) → Option Bool
  | [] => some true
  | (i, f) :: marks =>
    (read pieces i).bind fun b => if f b then checkMarks pieces marks else some false

/-- The date that a log starts with. -/
def dateFormat (loglen : ℕ) (pieces : Bytes) : List DateFormat → Option (Option DateFormat)
  | [] => some none
  | date :: dates =>
    if date.min < loglen then
      (checkMarks pieces date.marks).bind fun holds =>
        if holds then some (some date) else dateFormat loglen pieces dates
    else dateFormat loglen pieces dates

/-- The log with its umlaut repaired, for the dates. -/
def repaired (pieces : Bytes) : Bytes :=
  if 3 < pieces.length + 1 ∧ pieces[1]? = some 195 ∧ pieces[2]? = some 164 then
    lit "Ma" ++ pieces.drop 3
  else pieces

/-! ## Syslog headers -/

/-- The header while it is read: the copy of the log, the offset that the text goes on from, and
those of the names. -/
structure Header where
  buf : Bytes
  log : ℕ
  hostname : Option ℕ
  program_name : Option ℕ
  deriving DecidableEq, Repr

/-- The program behind `facility:severity ` of AIX; its offset, and that of the text behind it, or
the null pointer. -/
def aixName (buf : Bytes) (program_name : ℕ) : Option (Bytes × Option ℕ × Option ℕ) := do
  let pieces ← skip isValidChar buf program_name
  if ← test [is ':', is ' '] buf pieces then
    let buf ← write buf pieces 0
    return (buf, some program_name, some (pieces + 2))
  else if ← test [is '[', isDigit] buf pieces then
    let buf ← write buf pieces 0
    let pieces ← skip isDigit buf (pieces + 2)
    if ← test [is ']', is ':', is ' '] buf pieces then
      return (buf, some program_name, some (pieces + 3))
    else return (buf, some program_name, none)
  else return (buf, some program_name, some pieces)

/-- The header of AIX, behind the `|` and a letter. -/
def aixHeader (buf : Bytes) (pieces : ℕ) : Option (Bytes × Option ℕ × Option ℕ) := do
  let pieces ← skip isAlnum buf pieces
  if ← test [is ':'] buf pieces then
    let pieces ← skip isAlnum buf (pieces + 1)
    if ← test [is ' '] buf pieces then aixName buf (pieces + 1)
    else return (buf, none, none)
  else return (buf, none, none)

/-- The program behind a hostname. -/
def programHeader (buf : Bytes) (program_name : ℕ) : Option (Bytes × Option ℕ × Option ℕ) := do
  let pieces ← skip isValidChar buf program_name
  if ← test [is ':', is ' '] buf pieces then
    let buf ← write buf pieces 0
    return (buf, some program_name, some (pieces + 2))
  else if ← test [is '[', isDigit] buf pieces then
    let buf ← write buf pieces 0
    let pieces ← skip isDigit buf (pieces + 2)
    if ← test [is ']', is ':', is ' '] buf pieces then
      return (buf, some program_name, some (pieces + 3))
    else if ← test [is ']', is ' '] buf pieces then
      return (buf, some program_name, some (pieces + 2))
    else
      let pieces ← back isDigit buf (pieces - 1)
      let b ← read buf pieces
      let buf ← if b = 0 then write buf pieces (chr '[') else some buf
      return (buf, none, none)
  else if ← test [is '|', isLower] buf pieces then aixHeader buf (pieces + 2)
  else return (buf, none, none)

/-- The text behind the names, without `[ID xx facility.severity]`. -/
def removeId (header : Header) (pieces : Option ℕ) : Option Header :=
  match pieces with
  | none => some header
  | some pieces => do
    if ← test (text (lit "[ID ")) header.buf pieces then
      match ← strAt header.buf (pieces + 4) (lit "] ") with
      | some pieces => return { header with log := pieces + 2 }
      | none => return { header with log := pieces }
    else return { header with log := pieces }

/-- The hostname and what follows. -/
def hostHeader (buf : Bytes) (log : ℕ) : Option Header := do
  let pieces ← skip isValidChar buf log
  if ← test [is ':', is ' '] buf pieces then
    -- solaris without a hostname
    let buf ← write buf pieces 0
    removeId ⟨buf, log, none, some log⟩ (some (pieces + 2))
  else if ← test [is ' '] buf pieces then
    let buf ← write buf pieces 0
    let (buf, program_name, behind) ← programHeader buf (pieces + 1)
    removeId ⟨buf, pieces + 1, some log, program_name⟩ behind
  else return ⟨buf, log, none, none⟩

/-- What is done behind the date of a syslog header. -/
def syslogHeader (buf : Bytes) (log : ℕ) : Option Header := do
  if ← test [is ' '] buf log then hostHeader buf (log + 1) else hostHeader buf log

/-! ## Headers of asl -/

/-- The entries that are looked for. -/
inductive AslEntry
  | sender
  | message
  | host
  deriving DecidableEq, Repr

/-- The entry at an offset, and the offset behind its key; one that was found before is none. -/
def aslEntryAt (header : Header) (done_message : Bool) (pieces : ℕ) :
    Option (Option (AslEntry × ℕ)) := do
  if header.program_name = none ∧ (← test (text (lit "Sender ")) header.buf pieces) then
    return some (.sender, pieces + 7)
  else if done_message = false ∧ (← test (text (lit "Message ")) header.buf pieces) then
    return some (.message, pieces + 8)
  else if ← test (text (lit "Host ")) header.buf pieces then return some (.host, pieces + 5)
  else return none

/-- What is done with an entry; the loop goes on behind its closing bracket. -/
def aslFound (loop : Header → Bool → Option ℕ → Option Header) (header : Header)
    (done_message : Bool) (entry : AslEntry) (pieces : ℕ) : Option Header := do
  match entry with
  | .sender =>
    match ← chrAt header.buf pieces (chr ']') with
    | some closing =>
      let buf ← write header.buf closing 0
      let next ← chrAt buf (closing + 1) (chr '[')
      loop { header with buf, program_name := some pieces } done_message next
    | none => return header
  | .message =>
    match ← chrAt header.buf pieces (chr ']') with
    | some closing =>
      let buf ← write header.buf closing 0
      let next ← chrAt buf (closing + 1) (chr '[')
      loop { header with buf, log := pieces } true next
    | none => return { header with log := pieces }
  | .host =>
    match ← chrAt header.buf pieces (chr ']') with
    | some closing =>
      let buf ← write header.buf closing 0
      return { header with buf, hostname := some pieces }
    | none => return { header with hostname := none }

/-- The loop over the entries, from a `[` or the null pointer on. -/
def aslLoop : ℕ → Header → Bool → Option ℕ → Option Header
  | 0, _, _, _ => none
  | _ + 1, header, _, none => some header
  | fuel + 1, header, done_message, some pieces => do
    match ← aslEntryAt header done_message (pieces + 1) with
    | some (entry, pieces) => aslFound (aslLoop fuel) header done_message entry pieces
    | none =>
      let next ← chrAt header.buf (pieces + 1) (chr '[')
      aslLoop fuel header done_message next

/-- The entries behind the date. -/
def aslHeader (buf : Bytes) (log : ℕ) : Option Header := do
  let pieces ← chrAt buf log (chr '[')
  aslLoop (buf.length + 1) ⟨buf, log, none, none⟩ false pieces

/-! ## Messages -/

/-- The date that a log starts with, once its umlaut is repaired. -/
def logDate (full_log : Bytes) : Option (Option DateFormat) :=
  dateFormat (full_log.length + 1) (repaired full_log ++ [0]) dateFormats

/-- The header of a log, in its copy. -/
def logHeader (full_log : Bytes) : Option Header := do
  let buf := full_log ++ [0]
  match ← logDate full_log with
  | none => return ⟨buf, 0, none, none⟩
  | some date =>
    match date.follows with
    | .syslog => syslogHeader buf date.skip
    | .text => return ⟨buf, date.skip, none, none⟩
    | .asl => aslHeader buf date.skip
    | .squid =>
      let log ← skip (is ' ') buf date.skip
      return ⟨buf, log, none, none⟩

/-- `OS_IsSyscheckLocation` -/
def osIsSyscheckLocation (location : Bytes) : Bool :=
  let rec arrow : Bytes → Option Bytes
    | [] => none
    | b :: p =>
      match arrow p with
      | some mod => some mod
      | none => if (lit "->").isPrefixOf (b :: p) then some ((b :: p).drop 2) else none
  let mod := (arrow location).getD location
  mod = lit "syscheck" || mod = lit "syscheck-registry"

/-- `remove_control_characters_ex` -/
def removeControlCharactersEx (str : Bytes) (preserve_nl : Bool) : Bytes :=
  str.filter fun c => (preserve_nl && (c == chr '\n' || c == chr '\t')) || !isControlCharacter c

/-- Where the hostname of an event is. -/
inductive Hostname
  /-- In the copy of the log. -/
  | header (offset : ℕ)
  | agent (name : Bytes)
  | shost
  deriving DecidableEq, Repr

/-- The fields of `Eventinfo` that are set from the message. -/
structure Eventinfo where
  location : Bytes
  full_log : Bytes
  header : Header
  agent_name : Option Bytes
  hostname : Hostname
  deriving DecidableEq, Repr

/-- The name in `(agent) ip->location`. -/
def agentName (location : Bytes) : Option Bytes :=
  if location.head? = some (chr '(') then
    match cutAt (chr ')') location.tail with
    | some (name, _) => if name ≠ [] then some name else none
    | none => none
  else none

/-- The colon behind the location. -/
def locationEnd (msg : Bytes) : Option (Bytes × Bytes) :=
  match strchr (chr ':') msg with
  | none => none
  | some colon =>
    let pieces :=
      if msg.head? = some (chr '(') then (strstr (lit "->") msg).bind (strchr (chr ':'))
      else some colon
    pieces.map fun pieces => (msg.take (ptrDiff pieces msg), pieces.tail)

/-- The location and the log of a message behind its id. -/
def messageParts (msg : Bytes) : Option (Bytes × Bytes) :=
  (locationEnd msg).bind fun parts =>
    let location := removeControlCharacters parts.1
    if Merge.wRefParentFolder location then none
    else some (location, removeControlCharactersEx parts.2 (osIsSyscheckLocation location))

/-- `OS_CleanMSG_ex`, of a C string; the inner result is `-1` or the event. A message that ends in
front of its location is read beyond its end. -/
def osCleanMSGex (msg : Bytes) : Option (Option Eventinfo) :=
  if msg.length < 2 then none
  else
    match messageParts (msg.drop 2) with
    | none => some none
    | some (location, full_log) =>
      (logHeader full_log).map fun header =>
        let agent_name := agentName location
        let hostname :=
          match header.hostname with
          | some offset => .header offset
          | none => (agent_name.map .agent).getD .shost
        some { location, full_log, header, agent_name, hostname }

end CleanEvent
