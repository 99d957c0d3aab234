import Scriptlet.Json.Basic
import Scriptlet.Decimal.Rounding
import Scriptlet.Text.Digit

/-!
# Reading JSON

Reading is strict about the grammar but lets the names `NaN`, `Infinity`
and `-Infinity` stand for numbers. A complaint names the offset at which
no JSON text can go on in the way the text does. Nesting is bounded by a
limit that the caller gives, and whole numbers by a number of digits.
-/

namespace Scriptlet.Json

/-! ## Complaints -/

/-- What the reader missed or refused. -/
inductive Complaint where
  | value
  | propertyName
  | colon
  | comma
  | extraData
  | unterminated
  | escape
  | unicodeEscape
  | control
  | byteOrderMark
  deriving Repr, DecidableEq

def Complaint.message : Complaint → String
  | .value => "Expecting value"
  | .propertyName => "Expecting property name enclosed in double quotes"
  | .colon => "Expecting ':' delimiter"
  | .comma => "Expecting ',' delimiter"
  | .extraData => "Extra data"
  | .unterminated => "Unterminated string starting at"
  | .escape => "Invalid \\escape"
  | .unicodeEscape => "Invalid \\uXXXX escape"
  | .control => "Invalid control character at"
  | .byteOrderMark => "Unexpected UTF-8 BOM (decode using utf-8-sig)"

inductive ReadError where
  | malformed (what : Complaint) (offset : Nat)
  | tooManyDigits (count : Nat)
  | tooDeep
  deriving Repr, DecidableEq

/-- The line of an offset and the column in it, both counted from one. -/
def lineAndColumn (text : List Char) (offset : Nat) : Nat × Nat :=
  let before := text.take offset
  (before.count '\n' + 1,
    (before.reverse.takeWhile (· != '\n')).length + 1)

/-- The most digits that a whole number may have. -/
def maxIntegerDigits : Nat := 4300

def ReadError.message (text : List Char) : ReadError → String
  | .malformed what offset =>
    let (line, column) := lineAndColumn text offset
    s!"{what.message}: line {line} column {column} (char {offset})"
  | .tooManyDigits count =>
    s!"Exceeds the limit ({maxIntegerDigits} digits) for integer string " ++
      s!"conversion: value has {count} digits; " ++
      "use sys.set_int_max_str_digits() to increase the limit"
  | .tooDeep => "maximum recursion depth exceeded"

/-! ## Places in the text -/

/-- The text that is left to read, and the offset at which it starts. -/
structure Spot where
  rest : List Char
  offset : Nat
  deriving Repr, DecidableEq

namespace Spot

def drop (s : Spot) (n : Nat) : Spot := ⟨s.rest.drop n, s.offset + n⟩

def isBlank (c : Char) : Bool :=
  c == ' ' || c == '\t' || c == '\n' || c == '\r'

def skip (s : Spot) : Spot := s.drop (s.rest.takeWhile isBlank).length

end Spot

/-! ## Strings and numbers -/

def hexDigit? (c : Char) : Option Nat :=
  if c.isDigit then some (c.toNat - '0'.toNat)
  else if 'a' ≤ c ∧ c ≤ 'f' then some (c.toNat - 'a'.toNat + 10)
  else if 'A' ≤ c ∧ c ≤ 'F' then some (c.toNat - 'A'.toNat + 10)
  else none

def hexValue? (cs : List Char) : Option Nat :=
  cs.foldlM (fun n c => (hexDigit? c).map (16 * n + ·)) 0

/-- The character of a one-letter escape. -/
def shortEscape? : Char → Option Char
  | '\x22' => some '\x22'
  | '\\' => some '\\'
  | '/' => some '/'
  | 'b' => some '\x08'
  | 'f' => some '\x0c'
  | 'n' => some '\n'
  | 'r' => some '\r'
  | 't' => some '\t'
  | _ => none

/-- The second half of a surrogate pair, when `\u` and the code of one
follow in `cs` with at least one more character behind. -/
def lowSurrogate? (offset : Nat) : List Char → Except ReadError (Option Nat)
  | '\\' :: 'u' :: rest =>
    if (rest.drop 4).isEmpty then .ok none
    else
      match hexValue? (rest.take 4) with
      | none => .error (.malformed .unicodeEscape (offset + 1))
      | some low =>
        .ok (if 0xDC00 ≤ low ∧ low ≤ 0xDFFF then some low else none)
  | _ => .ok none

def consChar (c : Char) (read : List Char × Spot) : List Char × Spot :=
  (c :: read.1, read.2)

/-- The characters of a string up to its closing quote, and the place
behind it. `start` is the offset of the opening quote. -/
def readString (start : Nat) (offset : Nat) (cs : List Char) :
    Except ReadError (List Char × Spot) :=
  match cs with
  | [] => .error (.malformed .unterminated start)
  | '\x22' :: rest => .ok ([], ⟨rest, offset + 1⟩)
  | ['\\'] => .error (.malformed .unterminated start)
  | '\\' :: 'u' :: rest =>
    if (rest.drop 4).isEmpty then
      .error (.malformed .unicodeEscape (offset + 1))
    else
      match hexValue? (rest.take 4) with
      | none => .error (.malformed .unicodeEscape (offset + 1))
      | some code =>
        if 0xD800 ≤ code ∧ code ≤ 0xDBFF then
          match lowSurrogate? (offset + 6) (rest.drop 4) with
          | .error e => .error e
          | .ok (some low) =>
            let c := Char.ofNat
              (0x10000 + (code - 0xD800) * 0x400 + (low - 0xDC00))
            (readString start (offset + 12) (rest.drop 10)).map (consChar c)
          | .ok none =>
            (readString start (offset + 6) (rest.drop 4)).map (consChar '\uFFFD')
        else
          let c :=
            if 0xDC00 ≤ code ∧ code ≤ 0xDFFF then '\uFFFD'
            else Char.ofNat code
          (readString start (offset + 6) (rest.drop 4)).map (consChar c)
  | '\\' :: c :: rest =>
    match shortEscape? c with
    | none => .error (.malformed .escape offset)
    | some c =>
      (readString start (offset + 2) rest).map (consChar c)
  | c :: rest =>
    if c.toNat < 0x20 then .error (.malformed .control offset)
    else
      (readString start (offset + 1) rest).map (consChar c)
termination_by cs.length
decreasing_by all_goals simp only [List.length_cons, List.length_drop]; omega

/-- An exponent at the start of a text: how many characters it takes, and
its value. Without a digit there is none. -/
def readExponent : List Char → Option (Nat × Int)
  | c :: rest =>
    if c == 'e' || c == 'E' then
      let (signs, negative) :=
        match rest with
        | '-' :: _ => (1, true)
        | '+' :: _ => (1, false)
        | _ => (0, false)
      let digits := (rest.drop signs).takeWhile Char.isDigit
      if digits.isEmpty then none
      else
        let n : Int := Text.digitsToNat digits
        some (1 + signs + digits.length, if negative then -n else n)
    else none
  | [] => none

/-- A number: whole unless a fraction or an exponent follows. -/
def readNumber (s : Spot) : Except ReadError (Json × Spot) :=
  let (negative, signs) :=
    match s.rest with
    | '-' :: _ => (true, 1)
    | _ => (false, 0)
  let afterSign := s.drop signs
  let whole :=
    match afterSign.rest with
    | '0' :: _ => ['0']
    | cs => cs.takeWhile Char.isDigit
  if whole.isEmpty then .error (.malformed .value s.offset)
  else
    let afterWhole := afterSign.drop whole.length
    let fraction :=
      match afterWhole.rest with
      | '.' :: cs => cs.takeWhile Char.isDigit
      | _ => []
    let afterFraction :=
      if fraction.isEmpty then afterWhole
      else afterWhole.drop (1 + fraction.length)
    let exponent := readExponent afterFraction.rest
    if fraction.isEmpty && exponent.isNone then
      if maxIntegerDigits < whole.length then
        .error (.tooManyDigits whole.length)
      else
        let n : Int := Text.digitsToNat whole
        .ok (.integer (if negative then -n else n), afterWhole)
    else
      let (used, e) := exponent.getD (0, 0)
      let magnitude := Binary64.nearestDecimal
        (Text.digitsToNat (whole ++ fraction)) (e - fraction.length)
      .ok (.real (Binary64.signed negative magnitude), afterFraction.drop used)

def words : List (String × Json) :=
  [("null", .null), ("true", .boolean true), ("false", .boolean false),
    ("NaN", .real (0.0 / 0.0)),
    ("Infinity", .real (Binary64.signed false Binary64.infinityBits)),
    ("-Infinity", .real (Binary64.signed true Binary64.infinityBits))]

def readAtom (s : Spot) : Except ReadError (Json × Spot) :=
  match words.find? fun w => w.1.toList.isPrefixOf s.rest with
  | some (word, value) => .ok (value, s.drop word.length)
  | none => readNumber s

/-! ## Nested values -/

mutual

/-- One value at a place. Each call takes one from `fuel`, which the text's
length bounds; each bracket takes one from `depth`. -/
def readValue : Nat → Nat → Spot → Except ReadError (Json × Spot)
  | 0, _, _ => .error .tooDeep
  | fuel + 1, depth, s =>
    match s.rest with
    | [] => .error (.malformed .value s.offset)
    | '\x22' :: rest =>
      (readString s.offset (s.offset + 1) rest).map fun (cs, behind) =>
        (.text (String.ofList cs), behind)
    | '[' :: _ =>
      match depth with
      | 0 => .error .tooDeep
      | depth + 1 =>
        let inner := (s.drop 1).skip
        match inner.rest with
        | ']' :: _ => .ok (.list [], inner.drop 1)
        | _ => readItems fuel depth inner []
    | '\x7b' :: _ =>
      match depth with
      | 0 => .error .tooDeep
      | depth + 1 =>
        let inner := (s.drop 1).skip
        match inner.rest with
        | '\x7d' :: _ => .ok (.object [], inner.drop 1)
        | _ => readFields fuel depth inner []
    | _ => readAtom s

/-- The items of a list from the next one on; `done` holds the earlier
ones, the last first. -/
def readItems : Nat → Nat → Spot → List Json → Except ReadError (Json × Spot)
  | 0, _, _, _ => .error .tooDeep
  | fuel + 1, depth, s, done =>
    match readValue fuel depth s with
    | .error e => .error e
    | .ok (item, behind) =>
      let behind := behind.skip
      match behind.rest with
      | ']' :: _ => .ok (.list (item :: done).reverse, behind.drop 1)
      | ',' :: _ => readItems fuel depth (behind.drop 1).skip (item :: done)
      | _ => .error (.malformed .comma behind.offset)

/-- The fields of an object from the next one on. The last of several
fields with one key counts. -/
def readFields : Nat → Nat → Spot → List (String × Json) →
    Except ReadError (Json × Spot)
  | 0, _, _, _ => .error .tooDeep
  | fuel + 1, depth, s, done =>
    match s.rest with
    | '\x22' :: rest =>
      match readString s.offset (s.offset + 1) rest with
      | .error e => .error e
      | .ok (key, behind) =>
        let behind := behind.skip
        match behind.rest with
        | ':' :: _ =>
          match readValue fuel depth (behind.drop 1).skip with
          | .error e => .error e
          | .ok (value, behind) =>
            let done := setField done (String.ofList key) value
            let behind := behind.skip
            match behind.rest with
            | '\x7d' :: _ => .ok (.object done, behind.drop 1)
            | ',' :: _ => readFields fuel depth (behind.drop 1).skip done
            | _ => .error (.malformed .comma behind.offset)
        | _ => .error (.malformed .colon behind.offset)
    | _ => .error (.malformed .propertyName s.offset)

end

/-- Reads a whole text as one value, nested no deeper than `limit`. -/
def read (limit : Nat) (text : List Char) : Except ReadError Json :=
  if text.head? == some '\uFEFF' then .error (.malformed .byteOrderMark 0)
  else
    match readValue (2 * text.length + 2) limit (Spot.mk text 0).skip with
    | .error e => .error e
    | .ok (value, behind) =>
      let behind := behind.skip
      if behind.rest.isEmpty then .ok value
      else .error (.malformed .extraData behind.offset)

end Scriptlet.Json
