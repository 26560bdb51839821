import OssecHids.OsExecd.Request

/-!
# The keys file in the hands of the tools

`manage_agents` and `ossec-authd` add lines to `client.keys` and overwrite lines in it. Each of
their functions reads the file with a parser of its own.

- `mapIDToBitArray`, `countAgents`, `idExist`, `nameExist`, `ipExist`: the parsers;
- `osAddNewAgent`, `osRemoveAgent`: the file that they leave;
- `osIsValidName`, `osIsValidAgentKey`: what is accepted as a name and, by an agent, as a key.
-/

open CString

namespace AddAgent

def STR_SIZE : ℕ := 512

def FILE_SIZE : ℕ := 257

def AUTHD_FIRST_ID : ℕ := 1024

/-! ## What is accepted -/

/-- `isalnum` in the C locale. -/
def isAlnum (b : UInt8) : Bool :=
  isDigit b || (chr 'a' ≤ b && b ≤ chr 'z') || (chr 'A' ≤ b && b ≤ chr 'Z')

/-- `isxdigit` -/
def isXDigit (b : UInt8) : Bool :=
  isDigit b || (chr 'a' ≤ b && b ≤ chr 'f') || (chr 'A' ≤ b && b ≤ chr 'F')

/-- `OS_IsValidID` -/
def osIsValidID (id : Bytes) : Bool := id.length ≤ 8 && id.all isDigit

/-- `OS_IsValidName` -/
def osIsValidName (u_name : Bytes) : Bool :=
  2 ≤ u_name.length && u_name.length ≤ 128 &&
    u_name.all fun b => isAlnum b || b == chr '-' || b == chr '_' || b == chr '.'

/-- `OS_IsValidAgentKeyHash` -/
def osIsValidAgentKeyHash (hash : Bytes) : Bool := hash.length == 64 && hash.all isXDigit

/-- `OS_IsValidAgentKey` -/
def osIsValidAgentKey (env : KeysEnv) (key : Bytes) : Bool :=
  match cutAt (chr ' ') key with
  | none => false
  | some (id, name) =>
    match cutAt (chr ' ') (name.dropWhile (· == chr ' ')) with
    | none => false
    | some (name, ip) =>
      match cutAt (chr ' ') (ip.dropWhile (· == chr ' ')) with
      | none => false
      | some (ip, hash) =>
        let hash := hash.dropWhile (· == chr ' ')
        if hash.headD 0 = 0 ∨ (strchr (chr ' ') hash).isSome then false
        else if !(osIsValidID id && osIsValidName name) then false
        else if ip ≠ lit "any" ∧ osIsValidIP env ip ≠ 1 then false
        else osIsValidAgentKeyHash hash

/-! ## The parsers -/

/-- `MapIDToBitArray`: the bits that are set. -/
def mapIDToBitArray (max_agents : ℕ) (content : Bytes) : List ℕ :=
  (fgetsAll (FILE_SIZE - 2) [] content).filterMap fun line_read =>
    if line_read.headD 0 = chr '#' then none
    else
      (cutAt (chr ' ') line_read).bind fun (line_read, _) =>
        let name_num := atoi line_read
        if name_num ≥ AUTHD_FIRST_ID ∧ name_num < (max_agents + AUTHD_FIRST_ID : ℕ) then
          some (name_num - AUTHD_FIRST_ID).toNat
        else none

/-- The lines that `CountAgents` counts. -/
def countedLine (line_read : Bytes) : Bool :=
  if line_read.headD 0 = chr '#' ∨ line_read.headD 0 = chr ' ' then false
  else
    match cutAt (chr ' ') line_read with
    | none => false
    | some (_, tmp_str) =>
      -- a removed entry
      if tmp_str.headD 0 = chr '#' then false
      else
        match cutAt (chr ' ') tmp_str with
        | none => false
        | some (_, tmp_str) => (strchr (chr ' ') tmp_str).isSome

/-- `CountAgents` -/
def countAgents (content : Bytes) : ℕ :=
  ((fgetsAll (OS_BUFFER_SIZE - 1) [] content).filter countedLine).length

/-- The loop of `IDExist`, from the position `fp_pos` on. -/
def idExistLoop (id : Bytes) : ℕ → List Bytes → Option ℕ
  | _, [] => none
  | fp_pos, line_read :: rest =>
    if line_read.headD 0 = chr '#' then idExistLoop id (fp_pos + line_read.length) rest
    else
      match cutAt (chr ' ') line_read with
      | none => idExistLoop id (fp_pos + line_read.length) rest
      | some (field, _) =>
        if field = id then some fp_pos else idExistLoop id (fp_pos + line_read.length) rest

/-- `IDExist`: the position of the line, in `fp_pos`. -/
def idExist (content id : Bytes) : Option ℕ :=
  idExistLoop id 0 (fgetsAll (FILE_SIZE - 2) [] content)

/-- `NameExist` -/
def nameExist (content u_name : Bytes) : Bool :=
  if u_name.headD 0 = 0 ∨ u_name.headD 0 = chr '\r' ∨ u_name.headD 0 = chr '\n' then false
  else
    (fgetsAll (FILE_SIZE - 2) [] content).any fun line_read =>
      if line_read.headD 0 = chr '#' then false
      else
        match cutAt (chr ' ') line_read with
        | none => false
        | some (_, name) =>
          if name.headD 0 = chr '#' then false
          else
            match cutAt (chr ' ') name with
            | none => false
            | some (name, _) => u_name == name

/-- `IPExist`: the id of an agent. -/
def ipExist (content u_ip : Bytes) : Option Bytes :=
  if strncmpEq 3 u_ip (lit "any") ∨ (strchr (chr '/') u_ip).isSome then none
  else
    (fgetsAll (FILE_SIZE - 2) [] content).findSome? fun line_read =>
      if line_read.headD 0 = chr '#' then none
      else
        (cutAt (chr ' ') line_read).bind fun (id, name) =>
          if name.headD 0 = chr '#' then none
          else
            (cutAt (chr ' ') name).bind fun (_, ip) =>
              (cutAt (chr ' ') ip).bind fun (ip, _) => if u_ip = ip then some id else none

/-! ## Agents are added and removed -/

/-- The text of a line of the file. -/
def text (a : KeyLine) : Bytes :=
  a.id ++ chr ' ' :: (a.name ++ chr ' ' :: (a.ip ++ chr ' ' :: a.key))

/-- The first id that no line has. -/
def freeId (max_agents : ℕ) (content : Bytes) : Option Bytes :=
  ((List.range max_agents).find? fun i => i ∉ mapIDToBitArray max_agents content).map fun i =>
    snprintf 8 (fmtD (i + AUTHD_FIRST_ID : ℕ))

/-- The agent that `OS_AddNewAgent` makes, for the random bytes, if there are any. -/
def newAgent (P : Crypto) (max_agents : ℕ) (content name : Bytes)
    (ip id random_data : Option Bytes) : Option KeyLine :=
  -- one entry more and `OS_ReadKeys` would not accept the file
  if countAgents content + 3 ≥ max_agents then none
  else
    (id.or (freeId max_agents content)).bind fun id =>
      random_data.map fun random_data =>
        let rand_hex := random_data.flatMap fun b =>
          [Crypto.hexDigit (b.toNat / 16), Crypto.hexDigit (b.toNat % 16)]
        let str1 := snprintf STR_SIZE (name ++ (id ++ rand_hex))
        let str2 := snprintf STR_SIZE (ip.getD (lit "any") ++ (name ++ rand_hex.drop 64))
        { id, name, ip := ip.getD (lit "any"), key := P.osMD5Bytes str1 ++ P.osMD5Bytes str2 }

/-- `OS_AddNewAgent`: the line, if there is one, and the file. -/
def osAddNewAgent (P : Crypto) (max_agents : ℕ) (content name : Bytes)
    (ip id random_data : Option Bytes) : Option Bytes × Bytes :=
  match newAgent P max_agents content name ip id random_data with
  | none => (none, content)
  | some agent =>
    let finals := snprintf 2048 (text agent)
    (some finals, content ++ (finals ++ [chr '\n']))

/-- What is written behind the id of a removed agent. -/
def REMOVED : Bytes := lit " #*#*#*#*#*#*#*#*#*#*#"

/-- `OS_RemoveAgent`: whether there is such an id, and the file. -/
def osRemoveAgent (content u_id : Bytes) : Bool × Bytes :=
  match idExist content u_id with
  | none => (false, content)
  | some fp_pos =>
    (true, content.take fp_pos ++ overwrite (u_id ++ REMOVED) (content.drop fp_pos))

end AddAgent
