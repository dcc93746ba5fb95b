/-!
The kinds of tokens. A kind has a label, its name in messages about what was found, and a
spelling, its text in messages about what was expected.
-/

namespace ScriptFlow.Token

inductive Kind where
  | invalid
  | number
  | singleQuoted
  | doubleQuoted
  | word
  | ifKey
  | elseifKey
  | elseKey
  | endKey
  | forKey
  | whileKey
  | switchKey
  | caseKey
  | otherwiseKey
  | functionKey
  | returnKey
  | breakKey
  | continueKey
  | globalKey
  | persistentKey
  | newline
  | semicolon
  | comma
  | gets
  | colon
  | dot
  | plus
  | dash
  | star
  | slash
  | backslash
  | caret
  | dotStar
  | dotSlash
  | dotBackslash
  | dotCaret
  | quote
  | dotQuote
  | equal
  | notEqual
  | less
  | lessEqual
  | greater
  | greaterEqual
  | amp
  | pipe
  | ampAmp
  | pipePipe
  | tilde
  | openParen
  | closeParen
  | openBracket
  | closeBracket
  | openBrace
  | closeBrace
  deriving DecidableEq, Repr

namespace Kind

def label : Kind → String
  | invalid => "Error"
  | number => "Num"
  | singleQuoted => "Str"
  | doubleQuoted => "DqStr"
  | word => "Id"
  | ifKey => "If"
  | elseifKey => "Elseif"
  | elseKey => "Else"
  | endKey => "End"
  | forKey => "For"
  | whileKey => "While"
  | switchKey => "Switch"
  | caseKey => "Case"
  | otherwiseKey => "Otherwise"
  | functionKey => "Fn"
  | returnKey => "Return"
  | breakKey => "Break"
  | continueKey => "Continue"
  | globalKey => "Global"
  | persistentKey => "Persistent"
  | newline => "Newline"
  | semicolon => "Semicolon"
  | comma => "Comma"
  | gets => "Gets"
  | colon => "Colon"
  | dot => "Dot"
  | plus => "Plus"
  | dash => "Dash"
  | star => "Star"
  | slash => "Slash"
  | backslash => "Backslash"
  | caret => "Caret"
  | dotStar => "DotStar"
  | dotSlash => "DotSlash"
  | dotBackslash => "DotBackslash"
  | dotCaret => "DotCaret"
  | quote => "Quote"
  | dotQuote => "DotQuote"
  | equal => "Equal"
  | notEqual => "NotEq"
  | less => "Lt"
  | lessEqual => "Lte"
  | greater => "Gt"
  | greaterEqual => "Gte"
  | amp => "Amp"
  | pipe => "Pipe"
  | ampAmp => "AndAnd"
  | pipePipe => "OrOr"
  | tilde => "Tilde"
  | openParen => "OpenParen"
  | closeParen => "CloseParen"
  | openBracket => "OpenBracket"
  | closeBracket => "CloseBracket"
  | openBrace => "OpenBrace"
  | closeBrace => "CloseBrace"

def spelling : Kind → String
  | invalid => "error"
  | number => "num"
  | singleQuoted => "string"
  | doubleQuoted => "string"
  | word => "id"
  | ifKey => "if"
  | elseifKey => "elseif"
  | elseKey => "else"
  | endKey => "end"
  | forKey => "for"
  | whileKey => "while"
  | switchKey => "switch"
  | caseKey => "case"
  | otherwiseKey => "otherwise"
  | functionKey => "function"
  | returnKey => "return"
  | breakKey => "break"
  | continueKey => "continue"
  | globalKey => "global"
  | persistentKey => "persistent"
  | newline => "newline"
  | semicolon => ";"
  | comma => ","
  | gets => "="
  | colon => ":"
  | dot => "."
  | plus => "+"
  | dash => "-"
  | star => "*"
  | slash => "/"
  | backslash => "\\"
  | caret => "^"
  | dotStar => ".*"
  | dotSlash => "./"
  | dotBackslash => ".\\"
  | dotCaret => ".^"
  | quote => "'"
  | dotQuote => ".'"
  | equal => "=="
  | notEqual => "~="
  | less => "<"
  | lessEqual => "<="
  | greater => ">"
  | greaterEqual => ">="
  | amp => "&"
  | pipe => "|"
  | ampAmp => "&&"
  | pipePipe => "||"
  | tilde => "~"
  | openParen => "("
  | closeParen => ")"
  | openBracket => "["
  | closeBracket => "]"
  | openBrace => "\x7b"
  | closeBrace => "\x7d"

def keywords : List Kind :=
  [ifKey, elseifKey, elseKey, endKey, forKey, whileKey, switchKey, caseKey, otherwiseKey,
    functionKey, returnKey, breakKey, continueKey, globalKey, persistentKey]

/-- A word is a keyword exactly when it is spelled like one, in full. -/
def ofWord (text : List Char) : Kind :=
  (keywords.find? fun kind => kind.spelling.toList = text).getD word

/-- Whether a quote right behind this kind transposes what it ends, instead of opening a text. -/
def endsValue : Kind → Bool
  | word | number | endKey | closeParen | closeBracket | closeBrace | quote | dotQuote => true
  | _ => false

def separates : Kind → Bool
  | newline | semicolon | comma => true
  | _ => false

end Kind
end ScriptFlow.Token
