import ScriptFlow.Text.Position
import ScriptFlow.Token.Lexeme

/-!
Tokens with their places in the source. The offset counts bytes; two neighbours have a gap between
them exactly when the first stops before the second starts.
-/

namespace ScriptFlow

open Token (Kind Lexeme)

structure Token where
  kind : Kind
  text : List Char
  start : Nat
  position : Position
  deriving DecidableEq, Repr

namespace Token

def stop (token : Token) : Nat := token.start + byteLength token.text

def name (token : Token) : String := String.ofList token.text

/-- Whether something stands between two neighbours. -/
def apart (front back : Token) : Bool := front.stop < back.start

/-- The tokens among lexemes that begin at an offset and a place. -/
def place (offset : Nat) (here : Position) : List Lexeme → List Token
  | [] => []
  | lexeme :: rest =>
      let tail := place (offset + byteLength lexeme.text) (here.after lexeme.text) rest
      match lexeme with
      | .token kind text => ⟨kind, text, offset, here⟩ :: tail
      | .gap _ _ => tail

def ofSource (source : List Char) : List Token := place 0 Position.start (scan none source)

end Token
end ScriptFlow
