import ScriptFlow.Token.Kind

/-!
Lexemes tile a text: each is a token or a gap that only separates tokens, and their texts together
are the whole text. Scanning decides the first lexeme from the characters ahead and from the kind of
the token that ends right where it begins; that kind decides what a single quote means.
-/

namespace ScriptFlow.Token

inductive Gap where
  | blanks
  | comment
  | blockComment
  | continuation
  deriving DecidableEq, Repr

inductive Lexeme where
  | token (kind : Kind) (text : List Char)
  | gap (kind : Gap) (text : List Char)
  deriving DecidableEq, Repr

namespace Lexeme

def text : Lexeme → List Char
  | token _ text => text
  | gap _ text => text

/-- The kind that the next quote looks back at: a gap hides the token in front of it. -/
def kind? : Lexeme → Option Kind
  | token kind _ => some kind
  | gap _ _ => none

end Lexeme

def isBlank (c : Char) : Bool := c == ' ' || c == '\t' || c == '\r' || c == '\x0c'

def isWordStart (c : Char) : Bool := c.isAlpha || c == '_'

def isWordRest (c : Char) : Bool := c.isAlphanum || c == '_'

def notNewline (c : Char) : Bool := c != '\n'

/-- How many characters the longest run of the class at the front has. -/
def run (inClass : Char → Bool) (ahead : List Char) : Nat := (ahead.takeWhile inClass).length

/-- The length of `.` and digits at the front, or zero: a point without digits is no fraction. -/
def fraction : List Char → Nat
  | '.' :: ahead => match run Char.isDigit ahead with
    | 0 => 0
    | digits => 1 + digits
  | _ => 0

/-- The length of a decimal exponent at the front, or zero when its digits are missing. -/
def exponent : List Char → Nat
  | c :: ahead =>
      if c = 'e' ∨ c = 'E' then
        let sign := match ahead with
          | '+' :: _ | '-' :: _ => 1
          | _ => 0
        match run Char.isDigit (ahead.drop sign) with
        | 0 => 0
        | digits => 1 + sign + digits
      else 0
  | [] => 0

/-- The length of what may follow the digits of a whole number. -/
def decimals (ahead : List Char) : Nat :=
  let point := fraction ahead
  point + exponent (ahead.drop point)

/-- How many characters close a text that `mark` opened, the closing mark included. A doubled mark
stands for itself; a text does not run past its line. -/
def closing? (mark : Char) : List Char → Option Nat
  | [] => none
  | c :: ahead =>
      if c = mark then
        match ahead with
        | d :: rest => if d = mark then (closing? mark rest).map (· + 2) else some 1
        | [] => some 1
      else if c = '\n' then none
      else (closing? mark ahead).map (· + 1)

/-- How many characters run up to and through the first `%\x7d`, or to the end without one. -/
def blockEnd : List Char → Nat
  | '%' :: '\x7d' :: _ => 2
  | _ :: ahead => 1 + blockEnd ahead
  | [] => 0

/-- A block comment opens only at the end of its line or of the text. -/
def opensBlock : List Char → Bool
  | ['\x7b'] => true
  | '\x7b' :: '\n' :: _ => true
  | _ => false

/-- What a lexeme is, and how many characters it takes after its first one. -/
abbrev Reading := (Kind ⊕ Gap) × Nat

def comment (c : Char) (ahead : List Char) : Reading :=
  if c = '%' ∧ opensBlock ahead then (.inr .blockComment, 1 + blockEnd (ahead.drop 1))
  else (.inr .comment, run notNewline ahead)

/-- A text that never closes is invalid up to the end of its line. -/
def quoted (kind : Kind) (mark : Char) (ahead : List Char) : Reading :=
  match closing? mark ahead with
  | some length => (.inl kind, length)
  | none => (.inl .invalid, run notNewline ahead)

def dotted : List Char → Reading
  | '.' :: '.' :: ahead =>
      -- The rest of the line goes along, and the newline behind it.
      let line := run notNewline ahead
      (.inr .continuation, 2 + line + ((ahead.drop line).take 1).length)
  | '*' :: _ => (.inl .dotStar, 1)
  | '/' :: _ => (.inl .dotSlash, 1)
  | '\\' :: _ => (.inl .dotBackslash, 1)
  | '^' :: _ => (.inl .dotCaret, 1)
  | '\'' :: _ => (.inl .dotQuote, 1)
  | ahead => match run Char.isDigit ahead with
    | 0 => (.inl .dot, 0)
    | digits => (.inl .number, digits + exponent (ahead.drop digits))

/-- A mark of one character, or of two when `second` follows. -/
def either (one : Kind) (second : Char) (two : Kind) (ahead : List Char) : Reading :=
  if ahead.head? = some second then (.inl two, 1) else (.inl one, 0)

/-- Reads the lexeme that begins with `c`; `before` is the kind of the token that ends there. -/
def read (before : Option Kind) (c : Char) (ahead : List Char) : Reading :=
  if isBlank c then (.inr .blanks, run isBlank ahead)
  else if isWordStart c then
    let length := run isWordRest ahead
    (.inl (Kind.ofWord (c :: ahead.take length)), length)
  else if c.isDigit then
    let digits := run Char.isDigit ahead
    (.inl .number, digits + decimals (ahead.drop digits))
  else match c with
    | '%' | '#' => comment c ahead
    | '.' => dotted ahead
    | '"' => quoted .doubleQuoted '"' ahead
    | '\'' =>
        -- Right behind a value the quote transposes it; anywhere else it opens a text.
        if before.any Kind.endsValue then (.inl .quote, 0) else quoted .singleQuoted '\'' ahead
    | '\n' => (.inl .newline, 0)
    | ';' => (.inl .semicolon, 0)
    | ',' => (.inl .comma, 0)
    | ':' => (.inl .colon, 0)
    | '+' => (.inl .plus, 0)
    | '-' => (.inl .dash, 0)
    | '*' => (.inl .star, 0)
    | '/' => (.inl .slash, 0)
    | '\\' => (.inl .backslash, 0)
    | '^' => (.inl .caret, 0)
    | '=' => either .gets '=' .equal ahead
    | '~' => either .tilde '=' .notEqual ahead
    | '!' => either .tilde '=' .notEqual ahead
    | '<' => either .less '=' .lessEqual ahead
    | '>' => either .greater '=' .greaterEqual ahead
    | '&' => either .amp '&' .ampAmp ahead
    | '|' => either .pipe '|' .pipePipe ahead
    | '(' => (.inl .openParen, 0)
    | ')' => (.inl .closeParen, 0)
    | '[' => (.inl .openBracket, 0)
    | ']' => (.inl .closeBracket, 0)
    | '\x7b' => (.inl .openBrace, 0)
    | '\x7d' => (.inl .closeBrace, 0)
    | _ => (.inl .invalid, 0)

def Reading.lexeme (text : List Char) : Kind ⊕ Gap → Lexeme
  | .inl kind => .token kind text
  | .inr kind => .gap kind text

/-- The lexemes of a text whose front touches a token of kind `before`. -/
def scan (before : Option Kind) : List Char → List Lexeme
  | [] => []
  | c :: ahead =>
      let (sort, length) := read before c ahead
      let lexeme := Reading.lexeme (c :: ahead.take length) sort
      lexeme :: scan lexeme.kind? (ahead.drop length)
termination_by ahead => ahead.length
decreasing_by simp only [List.length_drop, List.length_cons]; omega

def Lexeme.concat (lexemes : List Lexeme) : List Char := lexemes.flatMap Lexeme.text

@[simp] theorem text_lexeme (text : List Char) (sort : Kind ⊕ Gap) :
    (Reading.lexeme text sort).text = text := by
  cases sort <;> rfl

/-- Scanning loses and adds nothing. -/
theorem concat_scan (before : Option Kind) (source : List Char) :
    Lexeme.concat (scan before source) = source := by
  fun_induction scan before source with
  | case1 => rfl
  | case2 before c ahead sort length _ lexeme ih =>
      simp only [Lexeme.concat, List.flatMap_cons] at ih ⊢
      simp [ih, lexeme]

end ScriptFlow.Token
