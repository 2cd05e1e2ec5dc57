import ClassAsm.Token
import ClassAsm.Operation

/-! Why a compilation fails. A fault is the cause, with the data that its message needs; a failure
is a fault and the span it is about. The first failure ends a compilation. -/

namespace ClassAsm

/-- The kinds of failure, each with the number that is also the exit status. -/
inductive ErrorCode where
  | none | unknown | unknownArgument | unaccessibleFile | ilCompFailed | ilasmNotFound
  | unintelligible | invalidToken | endOfFile | syntaxError | missingValue | invalidType
  | typeConflict | unknownVariable | unknownFunction | unimplementedClassMethod | redeclaration
deriving DecidableEq, Repr

namespace ErrorCode

def all : List ErrorCode :=
  [none, unknown, unknownArgument, unaccessibleFile, ilCompFailed, ilasmNotFound, unintelligible,
   invalidToken, endOfFile, syntaxError, missingValue, invalidType, typeConflict, unknownVariable,
   unknownFunction, unimplementedClassMethod, redeclaration]

def value : ErrorCode → Nat
  | none => 0 | unknown => 1 | unknownArgument => 2 | unaccessibleFile => 3 | ilCompFailed => 4
  | ilasmNotFound => 5 | unintelligible => 6 | invalidToken => 7 | endOfFile => 8
  | syntaxError => 9 | missingValue => 10 | invalidType => 11 | typeConflict => 12
  | unknownVariable => 13 | unknownFunction => 14 | unimplementedClassMethod => 15
  | redeclaration => 16

def label : ErrorCode → String
  | none => "None" | unknown => "Unknown" | unknownArgument => "UnknownArgument"
  | unaccessibleFile => "UnaccessibleFile" | ilCompFailed => "IlCompFailed"
  | ilasmNotFound => "IlasmNotFound" | unintelligible => "Unintelligible"
  | invalidToken => "InvalidToken" | endOfFile => "EndOfFile" | syntaxError => "SyntaxError"
  | missingValue => "MissingValue" | invalidType => "InvalidType" | typeConflict => "TypeConflict"
  | unknownVariable => "UnknownVariable" | unknownFunction => "UnknownFunction"
  | unimplementedClassMethod => "UnimplementedClassMethod" | redeclaration => "Redeclaration"

end ErrorCode

inductive Expected where
  | topLevel | namespaceName | classKeyword | className | classColon | member
  | methodVisibility | returnType | methodName | methodColon
  | fieldVisibility | fieldName | fieldType
  | paramOrParen | paramColon | paramType | paramEnd
  | blockEnd | statement | loopColon | armColon | elseColon | variableType
  | castTarget | expression | closingParen
deriving DecidableEq, Repr

def Expected.text : Expected → String
  | topLevel => "expected a namespace declaration or class definition"
  | namespaceName => "namespace must have a name"
  | classKeyword => "expected 'class'"
  | className => "class must have a name"
  | classColon => "expected ':' after class head"
  | member => "expected a method definition, a field or a closing ';'"
  | methodVisibility => "must declare a public or private function"
  | returnType => "must declare a return type"
  | methodName => "must declare the function name"
  | methodColon => "expected ':' after function head"
  | fieldVisibility => "must declare a public or private field"
  | fieldName => "field must have a name"
  | fieldType => "field must have a type"
  | paramOrParen => "expected a parameter declaration or closing parenthesis"
  | paramColon => "expected ':' after parameter name"
  | paramType => "parameters must have types"
  | paramEnd => "expected ',' or ')' in parameter list"
  | blockEnd => "expected a closing ';'"
  | statement => "expected a statement"
  | loopColon => "missing ':' before loop body"
  | armColon => "missing ':' before branch body"
  | elseColon => "missing ':' after 'else'"
  | variableType => "expected a type annotation, since a colon follows the variable name"
  | castTarget => "expected a type name after cast operator"
  | expression => "expected an expression"
  | closingParen => "expected a closing parenthesis"

inductive FileError where
  | notFound
  | denied
  | notDirectory
  | isDirectory
  | tooLong
  | notText
  /-- Anything else, in the words of the system. -/
  | other (message : String)
deriving DecidableEq, Repr

def FileError.message : FileError → String
  | notFound => "No such file or directory (os error 2)"
  | denied => "Permission denied (os error 13)"
  | notDirectory => "Not a directory (os error 20)"
  | isDirectory => "Is a directory (os error 21)"
  | tooLong => "File name too long (os error 36)"
  | notText => "stream did not contain valid UTF-8"
  | other message => message

/-- The cause of a failure. Types appear as they are shown to the user. -/
inductive Fault where
  | unexpectedCharacter (c : Char)
  | unexpectedToken (expected : Expected) (found : Kind)
  | unexpectedEnd (expected : Expected)
  | classRedeclared (name nspace : String)
  | fieldRedeclared (name owner : String)
  | methodRedeclared (name owner : String)
  | paramRedeclared (name : String)
  | unknownType (name : String)
  | tooManyLocals
  /-- Control reaches the end of a method that returns a value. -/
  | fallsThrough (method type : String)
  | bareReturn (method type : String)
  | returnMismatch (method wanted got : String)
  | noValue
  | unknownVariable (name : String)
  | unknownMethod (name : String)
  | staticFieldAccess (name : String)
  | fieldMismatch (name type got : String)
  | defaultMismatch (name type got : String)
  | referentMismatch (name type got : String)
  | declarationMismatch (name type got : String)
  | localMismatch (name type got : String)
  | noNegation (type : String)
  | noCast (source target : String)
  | noOperation (type : String) (operation : Operation)
  | operatorArity (method owner : String) (arity : Nat)
  | operandMismatch (operation : Operation) (type wanted got : String)
  | argumentCount (method : String) (wanted given : Nat)
  | argumentMismatch (param method wanted got : String)
  | argumentNotLocal (param method wanted : String)
  | assemblerNotFound (program : String)
  | assemblerUnusable (program : String) (reason : FileError)
  | assemblerFailed (status : Nat)
deriving DecidableEq, Repr

namespace Fault

def code : Fault → ErrorCode
  | unexpectedCharacter .. => .unintelligible
  | unexpectedToken .. => .invalidToken
  | unexpectedEnd .. => .endOfFile
  | classRedeclared .. | fieldRedeclared .. | methodRedeclared .. | paramRedeclared .. =>
    .redeclaration
  | unknownType .. => .invalidType
  | tooManyLocals => .unknown
  | fallsThrough .. | bareReturn .. | noValue => .missingValue
  | unknownVariable .. | staticFieldAccess .. => .unknownVariable
  | unknownMethod .. => .unknownFunction
  | returnMismatch .. | fieldMismatch .. | defaultMismatch .. | referentMismatch ..
  | declarationMismatch .. | localMismatch .. | operatorArity .. | operandMismatch ..
  | argumentCount .. | argumentMismatch .. | argumentNotLocal .. => .typeConflict
  | noNegation .. | noCast .. | noOperation .. => .unimplementedClassMethod
  | assemblerNotFound .. => .ilasmNotFound
  | assemblerUnusable .. | assemblerFailed .. => .ilCompFailed

def message : Fault → String
  | unexpectedCharacter c => "Unexpected character: '" ++ c.toString ++ "'"
  | unexpectedToken expected found => expected.text ++ ", found " ++ found.describe
  | unexpectedEnd expected => "unexpected end of file: " ++ expected.text
  | classRedeclared name nspace =>
    s!"The class '{name}' is already declared in namespace '{nspace}'"
  | fieldRedeclared name owner => s!"The field '{name}' is already declared in '{owner}'"
  | methodRedeclared name owner => s!"The function '{name}' is already declared in '{owner}'"
  | paramRedeclared name => s!"The parameter '{name}' is declared twice"
  | unknownType name => s!"Expected a valid type, got '{name}'"
  | tooManyLocals => "too many local variables"
  | fallsThrough method type => s!"Not all code paths of '{method}' return a value of type '{type}'"
  | bareReturn method type => s!"The function '{method}' must return a value of type '{type}'"
  | returnMismatch method wanted got =>
    s!"The function '{method}' must return type '{wanted}', got '{got}'"
  | noValue => "This expression does not produce a value"
  | unknownVariable name => s!"The variable '{name}' is not defined in this context"
  | unknownMethod name =>
    s!"The function '{name}' was not found or could not be accessed in this context!"
  | staticFieldAccess name =>
    s!"The instance field '{name}' cannot be assigned in a static context"
  | fieldMismatch name type got =>
    s!"Type mismatch! The field '{name}' is of type '{type}' and cannot hold '{got}'"
  | defaultMismatch name type got =>
    s!"Type mismatch! The field '{name}' is of type '{type}' but its default is '{got}'"
  | referentMismatch name type got =>
    s!"Type mismatch! '{name}' refers to '{type}' and cannot hold '{got}'"
  | declarationMismatch name type got =>
    s!"Type mismatch! '{name}' is declared as '{type}' but assigned a value of type '{got}'"
  | localMismatch name type got =>
    s!"Type mismatch! '{name}' is of type '{type}' and cannot hold '{got}'"
  | noNegation type => s!"The type '{type}' does not implement negation"
  | noCast source target => s!"The type '{source}' cannot be cast to '{target}'"
  | noOperation type operation =>
    s!"The type '{type}' does not implement the operation " ++ operation.label
  | operatorArity method owner arity =>
    s!"The operator method '{method}' of '{owner}' must take {arity} parameter(s)"
  | operandMismatch operation type wanted got =>
    "Type mismatch! The operation " ++ operation.label ++
      s!" on '{type}' expects '{wanted}' on the right, got '{got}'"
  | argumentCount method wanted given =>
    s!"The function '{method}' takes {wanted} argument(s) but {given} were given"
  | argumentMismatch param method wanted got =>
    s!"Type mismatch! The parameter '{param}' of '{method}' is '{wanted}', got '{got}'"
  | argumentNotLocal param method wanted =>
    s!"Type mismatch! The parameter '{param}' of '{method}' is '{wanted}', " ++
      "got 'a value that is not a local variable'"
  | assemblerNotFound program => s!"The assembler '{program}' was not found"
  | assemblerUnusable program reason => s!"Could not run '{program}': " ++ reason.message
  | assemblerFailed status => s!"The assembler exited with exit status: {status}"

end Fault

structure Failure where
  fault : Fault
  span : Option Span
deriving DecidableEq, Repr

namespace Failure

def code (f : Failure) : ErrorCode := f.fault.code

def message (f : Failure) : String := f.fault.message

def summary (f : Failure) : String :=
  f.code.label ++ " [" ++ toString f.code.value ++ "] : " ++ f.message

/-- The inner form of a failure, one field a line. -/
def innerForm (f : Failure) : String :=
  let span := match f.span with
    | none => ["    span: None,"]
    | some s =>
      ["    span: Some(", "        Span \x7b", s!"            start: {s.start},",
       s!"            end: {s.stop},", "        \x7d,", "    ),"]
  "\n".intercalate <|
    ["CompileError \x7b", "    code: " ++ f.code.label ++ ",",
     "    message: " ++ Text.quoted f.message ++ ","] ++ span ++ ["\x7d"]

end Failure

def Fault.at (f : Fault) (s : Span) : Failure := ⟨f, some s⟩

end ClassAsm
