import ActorLang.Toml
import ActorLang.Toml.Text

/-!
# Numbers, truth values, dates and times in TOML

All of these are words: rows of letters, digits and the marks that numbers and times contain. Only
a date and a time may have a blank between them.
-/

namespace ActorLang.Toml

/-- The number that digits in a base continue from `n`; single underscores may divide them. -/
def digitsFrom? (base n : Nat) : List Char → Option Nat
  | [] => some n
  | '_' :: c :: rest => do digitsFrom? base (n * base + (← digitValue? base c)) rest
  | c :: rest => do digitsFrom? base (n * base + (← digitValue? base c)) rest

def digits? (base : Nat) : List Char → Option Nat
  | [] => none
  | c :: rest => do digitsFrom? base (← digitValue? base c) rest

def decimal? (text : List Char) : Option Nat :=
  match text with
  | '0' :: _ :: _ => none
  | _ => digits? 10 text

def unsigned : List Char → Bool × List Char
  | '+' :: rest => (false, rest)
  | '-' :: rest => (true, rest)
  | word => (false, word)

/-- The whole number that a word stands for, in the range of 64 bits with a sign. -/
def integer? (word : List Char) : Option Int := do
  let n : Int ← match word with
    | '0' :: 'x' :: rest => (digits? 16 rest).map Int.ofNat
    | '0' :: 'o' :: rest => (digits? 8 rest).map Int.ofNat
    | '0' :: 'b' :: rest => (digits? 2 rest).map Int.ofNat
    | _ =>
      let (negative, rest) := unsigned word
      (decimal? rest).map fun n => if negative then -Int.ofNat n else Int.ofNat n
  if Int64.minValue.toInt ≤ n ∧ n ≤ Int64.maxValue.toInt then some n else none

/-- Whether `n · 10 ^ exponent` is too large for a float of 64 bits: at least halfway from the
largest of them to the next power of two. -/
def overflows (n : Nat) (exponent : Int) : Bool :=
  let limit := 1 <<< 1024 - 1 <<< 970
  let width := Int.ofNat (Nat.toDigits 10 n).length + exponent
  if n == 0 || width < 309 then false
  else if 309 < width then true
  else
    match exponent with
    | .ofNat e => limit ≤ n * Nat.pow 10 e
    | .negSucc e => limit * Nat.pow 10 (e + 1) ≤ n

def exponent? : List Char → Option Int
  | [] => some 0
  | c :: rest =>
    if c == 'e' || c == 'E' then
      let (negative, rest) := unsigned rest
      (digits? 10 rest).map fun n => if negative then -Int.ofNat n else Int.ofNat n
    else none

def isNumeral (c : Char) : Bool :=
  c.isDigit || c == '_'

def fraction? : List Char → Option (List Char × List Char)
  | '.' :: rest =>
    let (digits, rest) := rest.span isNumeral
    if (digits? 10 digits).isSome then some (digits, rest) else none
  | text => some ([], text)

def isInRange (whole fraction : List Char) (exponent : Int) : Bool :=
  (digits? 10 (whole ++ fraction)).any fun n =>
    !overflows n (exponent - Int.ofNat (fraction.filter Char.isDigit).length)

/-- Whether a word is a float: digits with a fraction, an exponent or both, or a special value. Of
the numbers that are too large, only those below zero are floats. -/
def isFloat (word : List Char) : Bool :=
  let (negative, text) := unsigned word
  let (whole, rest) := text.span isNumeral
  if String.ofList text == "inf" || String.ofList text == "nan" then true
  else if rest.isEmpty || (decimal? whole).isNone then false
  else
    match fraction? rest with
    | none => false
    | some (fraction, rest) =>
      match exponent? rest with
      | none => false
      | some e => negative || isInRange whole fraction e

def isTwoDigits (low high : Nat) (a b : Char) : Bool :=
  match digitValue? 10 a, digitValue? 10 b with
  | some m, some n => low ≤ 10 * m + n && 10 * m + n ≤ high
  | _, _ => false

def daysIn (year month : Nat) : Nat :=
  if month == 2 then
    if year % 4 == 0 && (year % 100 != 0 || year % 400 == 0) then 29 else 28
  else if month == 4 || month == 6 || month == 9 || month == 11 then 30
  else 31

def afterDate? : List Char → Option (List Char)
  | a :: b :: c :: d :: '-' :: m :: n :: '-' :: x :: y :: rest => do
    let year ← [a, b, c, d].foldlM (fun n c => (digitValue? 10 c).map (n * 10 + ·)) 0
    let month ← [m, n].foldlM (fun n c => (digitValue? 10 c).map (n * 10 + ·)) 0
    if isTwoDigits 1 12 m n && isTwoDigits 1 (daysIn year month) x y then some rest else none
  | _ => none

/-- The text behind a time of day, which may have leap seconds and fractions of seconds. -/
def afterTime? : List Char → Option (List Char)
  | h :: i :: ':' :: m :: n :: ':' :: s :: t :: rest =>
    if isTwoDigits 0 23 h i && isTwoDigits 0 59 m n && isTwoDigits 0 60 s t then
      match rest with
      | '.' :: d :: rest => if d.isDigit then some (rest.dropWhile Char.isDigit) else none
      | _ => some rest
    else none
  | _ => none

def isOffset : List Char → Bool
  | [] => true
  | ['Z'] | ['z'] => true
  | [sign, h, i, ':', m, n] =>
    (sign == '+' || sign == '-') && isTwoDigits 0 23 h i && isTwoDigits 0 59 m n
  | _ => false

def isFullTime (word : List Char) : Bool :=
  (afterTime? word).any isOffset

def isDateTime (word : List Char) : Bool :=
  match afterDate? word with
  | some [] => true
  | some (c :: time) => (c == 'T' || c == 't') && isFullTime time
  | none => afterTime? word == some []

def wordValue? (word : List Char) : Option Value :=
  match integer? word with
  | some n => some (.integer n)
  | none =>
    if String.ofList word == "true" || String.ofList word == "false" || isFloat word ||
      isDateTime word then some .atom
    else none

def isWordChar (c : Char) : Bool :=
  c.isAlphanum || c == '_' || c == '+' || c == '-' || c == '.' || c == ':'

/-- The value of the word at the head of a text, and the text behind it. A date goes on over one
blank if a time is behind it. -/
def word? (text : List Char) : Option (Value × List Char) := do
  let (word, rest) := text.span isWordChar
  let value ← wordValue? word
  match afterDate? word, rest with
  | some [], ' ' :: more =>
    let (time, behind) := more.span isWordChar
    some (value, if isFullTime time then behind else rest)
  | _, _ => some (value, rest)

def scalar? (text : List Char) : Option (Value × List Char) :=
  match text with
  | '"' :: '"' :: '"' :: rest => (afterMultiline? '"' 0 rest).map (.atom, ·)
  | '\x27' :: '\x27' :: '\x27' :: rest => (afterMultiline? '\x27' 0 rest).map (.atom, ·)
  | '"' :: rest => (basicString 0 rest).map fun (_, rest) => (.atom, rest)
  | '\x27' :: rest => (literalString rest).map fun (_, rest) => (.atom, rest)
  | _ => word? text

end ActorLang.Toml
