/-!
Data without a notation: what a dump says, before it is decided how it is written. A choice is one
of several named forms, alone or with a content.
-/

namespace ScriptFlow.Dump

inductive Datum where
  | number (value : Nat)
  | flag (value : Bool)
  | text (value : String)
  | absent
  | present (content : Datum)
  | list (items : List Datum)
  | record (fields : List (String × Datum))
  | choice (name : String) (content : Option Datum)

namespace Datum

def optional : Option Datum → Datum
  | none => absent
  | some content => present content

def texts (values : List String) : Datum := list (values.map text)

def numbers (values : List Nat) : Datum := list (values.map number)

def plain (name : String) : Datum := choice name none

def holding (name : String) (content : Datum) : Datum := choice name (some content)

end Datum
end ScriptFlow.Dump
