import HindleyMilner.Json.Token
import HindleyMilner.Text.Digits

/-!
Reading a value from its text. The reader is a pushdown machine: `State` says what may come next
and which arrays and objects are still open, so nesting costs no recursion and the depth limit is
a count of open frames.
-/

namespace HindleyMilner.Json

inductive ReadError where
  | flawed (flaw : Flaw) (offset : Nat)
  | tooDeep
  | longNumeral (digits : Nat)
deriving DecidableEq, Repr

/-- How deep values may nest, and how many digits a number may have. All that is shown of a value
in a message, and every line and column, was read within the limits (`Json.short_read`):
`Json.shown` and `Coordinate.text` are meant for numbers of at most `Text.digitLimit` digits. -/
structure Limits where
  depth : Nat
  digits : Nat := Text.digitLimit

/-- An array or object that is still open. What it holds so far is kept last first. -/
inductive Frame where
  | item (done : List Json)
  | field (done : List (Text × Json)) (key : Text)

inductive State where
  | value (frames : List Frame)
  | firstItem (frames : List Frame)
  | firstKey (frames : List Frame)
  | key (done : List (Text × Json)) (frames : List Frame)
  | colon (done : List (Text × Json)) (key : Text) (frames : List Frame)
  | after (value : Json) (frames : List Frame)

/-- The complaint when something else comes. -/
def State.expected : State → Flaw
  | value _ | firstItem _ => .value
  | firstKey _ | key .. => .key
  | colon .. => .colon
  | after _ [] => .extra
  | after _ (_ :: _) => .comma

/-- The machine between tokens: its state, and how many more frames may be opened. -/
structure Machine where
  room : Nat
  state : State

namespace Machine

/-- A token where a value may start. -/
def begin (limits : Limits) (room : Nat) (frames : List Frame) (offset : Nat) :
    Token → Except ReadError Machine
  | .openArray =>
      if room = 0 then .error .tooDeep else .ok ⟨room - 1, .firstItem frames⟩
  | .openObject =>
      if room = 0 then .error .tooDeep else .ok ⟨room - 1, .firstKey frames⟩
  | .scalar v => .ok ⟨room, .after v frames⟩
  | .text s => .ok ⟨room, .after (.str s) frames⟩
  | .integer negative digits =>
      if limits.digits < digits.length then .error (.longNumeral digits.length)
      else
        let n : Int := naturalOf digits
        .ok ⟨room, .after (.int (if negative then -n else n)) frames⟩
  | .flawed flaw k => .error (.flawed flaw (offset + k))
  | _ => .error (.flawed .value offset)

/-- A token where a key may start. -/
def beginKey (room : Nat) (done : List (Text × Json)) (frames : List Frame) (offset : Nat) :
    Token → Except ReadError Machine
  | .text s => .ok ⟨room, .colon done s frames⟩
  | .flawed flaw k => .error (.flawed flaw (offset + k))
  | _ => .error (.flawed .key offset)

def step (limits : Limits) (m : Machine) (offset : Nat) (token : Token) :
    Except ReadError Machine :=
  match m.state, token with
  | .value frames, token => begin limits m.room frames offset token
  | .firstItem frames, .closeArray => .ok ⟨m.room + 1, .after (.arr []) frames⟩
  | .firstItem frames, token => begin limits m.room (.item [] :: frames) offset token
  | .firstKey frames, .closeObject => .ok ⟨m.room + 1, .after (.obj []) frames⟩
  | .firstKey frames, token => beginKey m.room [] frames offset token
  | .key done frames, token => beginKey m.room done frames offset token
  | .colon done key frames, .colon => .ok ⟨m.room, .value (.field done key :: frames)⟩
  | .after v (.item done :: frames), .comma =>
      .ok ⟨m.room, .value (.item (v :: done) :: frames)⟩
  | .after v (.item done :: frames), .closeArray =>
      .ok ⟨m.room + 1, .after (.arr (v :: done).reverse) frames⟩
  | .after v (.field done key :: frames), .comma =>
      .ok ⟨m.room, .key ((key, v) :: done) frames⟩
  | .after v (.field done key :: frames), .closeObject =>
      .ok ⟨m.room + 1, .after (ofFields ((key, v) :: done).reverse) frames⟩
  | state, _ => .error (.flawed state.expected offset)

/-- Reads the rest of the text, which starts at `offset`. -/
def run (limits : Limits) (m : Machine) (offset : Nat) (text : Text) : Except ReadError Json :=
  match text with
  | [] =>
      match m.state with
      | .after v [] => .ok v
      | state => .error (.flawed state.expected offset)
  | p :: rest =>
      if isSpace p then run limits m (offset + 1) rest
      else
        let found := scan p rest
        match step limits m offset found.1 with
        | .error e => .error e
        | .ok next => run limits next (offset + 1 + found.2) (rest.drop found.2)
termination_by text.length
decreasing_by
  all_goals simp only [List.length_cons, List.length_drop]
  all_goals omega

end Machine

def read (limits : Limits) (text : Text) : Except ReadError Json :=
  if text.head? = some (.char (Char.ofNat 0xFEFF)) then .error (.flawed .byteOrderMark 0)
  else Machine.run limits ⟨limits.depth, .value []⟩ 0 text

end HindleyMilner.Json
