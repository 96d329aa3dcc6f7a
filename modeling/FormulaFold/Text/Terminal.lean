import FormulaFold.Text.Cluster
import FormulaFold.Text.Columns

/-! # Text on a terminal

A terminal does not show everything it is sent: control sequences start with an escape
character and steer it, and control strings run on until they are ended.  `visible` keeps what
is shown, together with the plain control characters between the sequences, and `width` counts
the columns that the shown characters take.

A terminal reads the bytes of a text.  Outside control strings the bytes of a character stay
together; some control strings, however, are ended by a byte that may stand inside a character.
The bytes after it are read as controls of one byte each.
-/
namespace FormulaFold.Text.Terminal

/-- What a terminal is in the middle of. -/
inductive Mode where
  /-- Showing text. -/
  | ground
  /-- After an escape character. -/
  | escape
  /-- After the intermediate characters of an escape sequence. -/
  | escapeMiddle
  /-- In the parameters of a control sequence. -/
  | control
  /-- After the intermediate characters of a control sequence. -/
  | controlMiddle
  /-- At the start of a device string. -/
  | device
  /-- In the parameters of a device string. -/
  | deviceParameters
  /-- After the intermediate characters of a device string. -/
  | deviceMiddle
  /-- In the text of a device string. -/
  | deviceText
  /-- In a command to the system of the terminal. -/
  | command
  /-- In any other control string. -/
  | string
deriving DecidableEq, Inhabited

namespace Mode

/-- Whether bytes above ASCII belong to a control string. -/
def isText : Mode → Bool
  | deviceText | command => true
  | _ => false

/-- Whether the text of a control string is being read. -/
def isString (mode : Mode) : Bool := mode.isText || mode = string

/-- Whether a control character inside is passed over instead of carried out. -/
def dropsControls : Mode → Bool
  | ground | escape | escapeMiddle | control | controlMiddle => false
  | _ => true

/-- What a character after an escape character starts. -/
def afterEscape (c : Char) : Mode :=
  if c = '[' then control
  else if c = 'P' then device
  else if c = ']' then command
  else if c = 'X' ∨ c = '^' ∨ c = '_' then string
  else if c.toNat < 0x30 then escapeMiddle
  else ground

/-- The mode after an ASCII character from the space on. -/
def next (mode : Mode) (c : Char) : Mode :=
  let n := c.toNat
  match mode with
  | ground => ground
  | escape => if n = 0x7F then escape else afterEscape c
  | escapeMiddle => if n < 0x30 ∨ n = 0x7F then escapeMiddle else ground
  | control =>
    if n < 0x30 then controlMiddle else if n < 0x40 ∨ n = 0x7F then control else ground
  | controlMiddle => if n < 0x30 ∨ n = 0x7F then controlMiddle else ground
  | device =>
    if n < 0x30 then deviceMiddle
    else if n < 0x40 then deviceParameters
    else if n = 0x7F then device
    else deviceText
  | deviceParameters =>
    if n < 0x30 then deviceMiddle
    else if n < 0x40 ∨ n = 0x7F then deviceParameters
    else deviceText
  | deviceMiddle => if n < 0x30 ∨ n = 0x7F then deviceMiddle else deviceText
  | deviceText => deviceText
  | command => command
  | string => string

/-- Whether an ASCII character is shown or carried out, and the mode after it. -/
def step (mode : Mode) (c : Char) : Bool × Mode :=
  let n := c.toNat
  if n = 0x1B then (false, if mode = device then deviceText else escape)
  else if n = 0x18 ∨ n = 0x1A then (!mode.isString, ground)
  else if n = 0x07 ∧ mode = command then (false, ground)
  else if n < 0x20 then
    if mode = device ∧ 0x08 ≤ n ∧ n ≤ 0x0D then (false, deviceText)
    else (!mode.dropsControls, mode)
  else (mode = ground, mode.next c)

/-- Whether a byte from the inside of a character is carried out as a control, and the mode after
it. -/
def stepByte (mode : Mode) (n : Nat) : Bool × Mode :=
  if n = 0x9C ∧ mode.isString then (false, ground)
  else if mode.isText then (false, mode)
  else if n = 0x90 then (false, device)
  else if n = 0x9B then (false, control)
  else if n = 0x9D then (false, command)
  else if n = 0x98 ∨ n = 0x9E ∨ n = 0x9F then (false, string)
  else (n < 0xA0, ground)

/-- How many bytes are carried out as controls, and the mode after them. -/
def stepBytes : Mode → List UInt8 → Nat × Mode
  | mode, [] => (0, mode)
  | mode, b :: bs =>
    let (shown, after) := mode.stepByte b.toNat
    let (count, after) := after.stepBytes bs
    (if shown then count + 1 else count, after)

/-- The same for the bytes of a character inside a control string.  The first byte of a character
never ends a string. -/
def stepInside (mode : Mode) (c : Char) : Nat × Mode :=
  mode.stepBytes ((String.utf8EncodeChar c).drop 1)

/-- The characters that are shown or carried out when a text follows in a mode.  A byte that is
no character of its own is written as the replacement character. -/
def kept : Mode → List Char → List Char
  | _, [] => []
  | mode, c :: cs =>
    if c.toNat < 0x80 then
      let (shown, after) := mode.step c
      if shown then c :: kept after cs else kept after cs
    else if mode.isText then
      let (count, after) := mode.stepInside c
      List.replicate count '\uFFFD' ++ kept after cs
    else c :: kept ground cs

/-- The number of columns of the text that follows in a mode; `cluster?` is the end of the cluster
before it.  An ASCII character is a cluster of its own unless it belongs to one before it. -/
def columnsOf : (mode : Mode) → (cluster? : Option ClusterEnd) → List Char → Nat
  | _, _, [] => 0
  | mode, cluster?, c :: cs =>
    match cluster?.filter (·.takes c) with
    | some e => columnsOf mode (some (e.push c)) cs
    | none =>
      if c.toNat < 0x80 then
        let isShown : Bool := mode = ground ∧ 0x20 ≤ c.toNat ∧ c.toNat < 0x7F
        (if isShown then 1 else 0) + columnsOf (mode.step c).2 none cs
      else if mode.isText then columnsOf (mode.stepInside c).2 none cs
      else clusterColumns c cs.head? + columnsOf ground (some (.start c)) cs

end Mode

/-- A text without its control sequences. -/
def visible (s : String) : String := String.ofList (Mode.ground.kept s.toList)

/-- The number of columns that a text of one line takes. -/
def width (s : String) : Nat := Mode.ground.columnsOf none s.toList

end FormulaFold.Text.Terminal
