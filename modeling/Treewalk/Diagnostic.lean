import Treewalk.Token

/-!
# Diagnostics

What can go wrong in each phase, and where. A fault is a cause; `message` gives
its wording, and `Diagnostic.text` adds the place. The three static phases are
reading characters, reading tokens and resolving names.
-/

namespace Treewalk

inductive LexicalFault where
  | unexpectedCharacter
  | unterminatedString
  deriving DecidableEq, Repr

def LexicalFault.message : LexicalFault → String
  | unexpectedCharacter => "Unexpected character."
  | unterminatedString => "Unterminated string."

/-- The longest parameter list and the longest argument list. -/
def maxArity : Nat := 255

inductive SyntaxFault where
  /-- Something else stands where `what` has to. -/
  | expected (what : String)
  | tooManyParameters
  | tooManyArguments
  | invalidTarget
  deriving DecidableEq, Repr

def SyntaxFault.message : SyntaxFault → String
  | expected what => "Expect " ++ what ++ "."
  | tooManyParameters => "Can't have more than " ++ toString maxArity ++ " parameters."
  | tooManyArguments => "Can't have more than " ++ toString maxArity ++ " arguments."
  | invalidTarget => "Invalid assignment target."

inductive ScopeFault where
  | redeclared
  | readInInitializer
  | returnAtTopLevel
  | thisOutsideClass
  | superOutsideClass
  | superWithoutSuperclass
  | inheritsFromItself
  deriving DecidableEq, Repr

def ScopeFault.message : ScopeFault → String
  | redeclared => "Already a variable with this name in this scope."
  | readInInitializer => "Can't read local variable in its own initializer."
  | returnAtTopLevel => "Can't return from top-level code."
  | thisOutsideClass => "Can't use 'this' outside of a class."
  | superOutsideClass => "Can't use 'super' outside of a class."
  | superWithoutSuperclass => "Can't use 'super' in a class with no superclass."
  | inheritsFromItself => "A class can't inherit from itself."

inductive RuntimeFault where
  | undefinedVariable (name : String)
  | undefinedProperty (name : String)
  | operandNotNumber
  | operandsNotNumbers
  | operandsNotAddable
  | invalidUnary
  | invalidBinary
  | notCallable
  | arity (expected got : Nat)
  | stackOverflow
  | noProperties
  | noFields
  | superclassNotClass
  | superOutsideClass
  /-- A native function refused its arguments. -/
  | native (text : String)
  deriving DecidableEq, Repr

def RuntimeFault.message : RuntimeFault → String
  | undefinedVariable name => "Undefined variable '" ++ name ++ "'."
  | undefinedProperty name => "Undefined property '" ++ name ++ "'."
  | operandNotNumber => "Operand must be a number."
  | operandsNotNumbers => "Operands must be numbers."
  | operandsNotAddable => "Operands must be two numbers or two strings."
  | invalidUnary => "Invalid unary operator."
  | invalidBinary => "Invalid binary operator."
  | notCallable => "Can only call functions and classes."
  | arity expected got =>
    "Expected " ++ toString expected ++ " arguments but got " ++ toString got ++ "."
  | stackOverflow => "Stack overflow."
  | noProperties => "Only instances have properties."
  | noFields => "Only instances have fields."
  | superclassNotClass => "Superclass must be a class."
  | superOutsideClass => ScopeFault.superOutsideClass.message
  | native text => text

/-- A failure of a channel that text is read from or written to. -/
inductive ChannelFault where
  | sinkFull
  | flushFailed
  | invalidText
  deriving DecidableEq, Repr

def ChannelFault.message : ChannelFault → String
  | sinkFull => "sink full"
  | flushFailed => "flush failed"
  | invalidText => "stream did not contain valid UTF-8"

inductive Diagnostic where
  | lexical (line : Nat) (fault : LexicalFault)
  | syntactic (token : Token) (fault : SyntaxFault)
  | scoping (token : Token) (fault : ScopeFault)
  | runtime (token : Token) (fault : RuntimeFault)
  | channel (fault : ChannelFault)
  deriving DecidableEq, Repr

namespace Diagnostic

/-- The unit is rejected before it runs. -/
def isStatic : Diagnostic → Bool
  | lexical .. | syntactic .. | scoping .. => true
  | runtime .. | channel _ => false

def message : Diagnostic → String
  | lexical _ fault => fault.message
  | syntactic _ fault => fault.message
  | scoping _ fault => fault.message
  | runtime _ fault => fault.message
  | channel fault => fault.message

/-- Where a token stands, as a static diagnostic says it. -/
def place (t : Token) : String :=
  if t.isEnd then " at end" else " at '" ++ t.lexeme ++ "'"

def text (d : Diagnostic) : String :=
  match d with
  | lexical line _ => "[line " ++ toString line ++ "] Error: " ++ d.message
  | syntactic token _ | scoping token _ =>
    "[line " ++ toString token.line ++ "] Error" ++ place token ++ ": " ++ d.message
  | runtime token _ =>
    d.message ++ "\n[line " ++ toString token.line ++ "] at '" ++ token.lexeme ++ "'"
  | channel _ => d.message

end Diagnostic

end Treewalk
