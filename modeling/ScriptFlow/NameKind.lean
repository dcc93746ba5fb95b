import ScriptFlow.File.Basic
import ScriptFlow.Stmt.Target

/-!
What a name refers to in a scope. One spelling serves for indexing a variable and for calling a
function, so the whole scope decides: a name that is bound anywhere in it is a variable; otherwise a
name that occurs is a function when it is defined in the program, built in, or called; any other
name is unknown. A use whose arguments hold `end` or a lone colon of their own is no call.
-/

namespace ScriptFlow

inductive NameKind where
  | var
  | function
  | unknown
  deriving DecidableEq, Repr

def NameKind.label : NameKind → String
  | var => "var"
  | function => "fun"
  | unknown => "unknown"

/-- Functions that are often used without arguments, or look like plain names. -/
def builtins : List String :=
  ["abs", "all", "any", "ceil", "cell", "cos", "cumsum", "diag", "disp", "eps", "error", "exp",
    "eye", "false", "fieldnames", "find", "floor", "fprintf", "Inf", "inf", "input", "inv",
    "isempty", "isequal", "length", "linspace", "log", "max", "mean", "min", "mod", "NaN", "nan",
    "num2str", "numel", "ones", "pi", "prod", "rand", "randn", "rem", "repmat", "reshape",
    "round", "sin", "size", "sort", "sprintf", "sqrt", "std", "str2num", "strcat", "struct",
    "sum", "tan", "tic", "toc", "true", "warning", "zeros"]

section
variable {Label Mark Body : Type}

namespace Expr

/-- The name that the expression calls, by its root alone. -/
def called? : Expr Label → Option String
  | node _ (.param (node _ (.name name)) args) => if args.any selects then none else some name
  | _ => none

def calls (expr : Expr Label) : List String := expr.within.filterMap called?

end Expr

namespace Stmt

/-- The names that a statement binds in its scope; an ill-formed one binds none. -/
def binds (stmt : Stmt Label (Expr Mark)) : List String :=
  stmt.shape.bases.toOption.getD [] ++ stmt.shape.shared

def names (stmt : Stmt Label (Expr Mark)) : List String := stmt.shape.exprs.flatMap Expr.names

def calls (stmt : Stmt Label (Expr Mark)) : List String := stmt.shape.exprs.flatMap Expr.calls

end Stmt

/-- The parameters that are variables: `~` stands for an argument that is not used. -/
def Header.binds (header : Header) : List String :=
  (header.inputs ++ header.outputs).filter (· != "~")

end

/-- What decides the kinds of names in one scope. -/
structure Vocabulary where
  bound : NameSet
  occurring : NameSet
  callable : NameSet

namespace Vocabulary

variable {Label Mark : Type}

def ofScope (defined : List String) (header : Option Header)
    (body : List (Stmt Label (Expr Mark))) : Vocabulary :=
  let stmts := Stmt.within body
  let parameters := (header.map Header.binds).getD []
  { bound := NameSet.ofList (parameters ++ stmts.flatMap Stmt.binds)
    occurring := NameSet.ofList (stmts.flatMap Stmt.names)
    callable := NameSet.ofList (defined ++ builtins ++ stmts.flatMap Stmt.calls) }

def kind (vocabulary : Vocabulary) (name : String) : NameKind :=
  if name ∈ vocabulary.bound then .var
  else if name ∈ vocabulary.occurring ∧ name ∈ vocabulary.callable then .function
  else .unknown

def isFunction (vocabulary : Vocabulary) (name : String) : Bool := vocabulary.kind name = .function

end Vocabulary

/-- Without a vocabulary no name is a function. -/
def isFunction (vocabulary : Option Vocabulary) (name : String) : Bool :=
  vocabulary.any (·.isFunction name)

end ScriptFlow
