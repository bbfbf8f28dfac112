import Loom.Document
import Loom.Error
import Loom.Text.Brackets

/-!
Reading the texts of a document: types, methods, fields, instructions and attribute arguments.
-/
namespace Loom

open Text (trim)
open Text.Brackets (split cut beforeClosing applications)

/-- What the numbered parameters stand for: those of the enclosing type and method in a body, those of the declaring
    type and the reference itself in the signature of a member reference. -/
structure ParamScope where
  typeParams : List GenericParam := []
  methodParams : List GenericParam := []

namespace Program

/-- The parameter at a written position. -/
def paramAt? (params : List GenericParam) (digits : List Char) : Option TypeRef :=
  match Text.Decimal.parse digits with
  | .ok n => if n < 0 then none else (params[n.toNat]?).map .param
  | .error _ => none

def readTypeName (p : Program) (m : ModuleId) (text : List Char) : Except ReadFault TypeId :=
  let name := String.ofList (trim text)
  match p.findType? m name with
  | some t => .ok t
  | none => .error (.unknownType name)

/-- Reads a type whose text has a bounded number of nested argument lists. A generated name can hold an argument list,
    so the whole text is tried as a name before it is taken apart. -/
def readTypeWithin (p : Program) (m : ModuleId) (scope : ParamScope) : Nat → List Char → Except ReadFault TypeRef
  | 0, _ => .error .emptyType
  | n + 1, text =>
    match trim text with
    | [] => .error .emptyType
    | '!' :: '!' :: digits =>
      match paramAt? scope.methodParams digits with
      | some t => .ok t
      | none => .error (.methodParamRange (String.ofList (trim text)))
    | '!' :: digits =>
      match paramAt? scope.typeParams digits with
      | some t => .ok t
      | none => .error (.typeParamRange (String.ofList (trim text)))
    | s =>
      match p.findType? m (String.ofList s) with
      | some t => .ok (.decl t)
      | none =>
        let reading := (applications s).findSome? fun (head,inner) =>
          (p.findType? m (String.ofList head)).map (·,inner)
        match reading with
        | none => (p.readTypeName m s).map .decl
        | some (t,inner) =>
          match split ',' inner with
          | none => .error (.unbalancedArguments (p.fullName t) (String.ofList inner))
          | some parts => do
            let args ← parts.mapM (p.readTypeWithin m scope n)
            (p.applyType t args).mapError .count

def readType (p : Program) (m : ModuleId) (scope : ParamScope) (text : List Char) : Except ReadFault TypeRef :=
  p.readTypeWithin m scope (text.length + 1) text

/-- The text around the first pair of colons. -/
def cutColons : List Char → Option (List Char × List Char)
  | [] => none
  | ':' :: ':' :: rest => some ([],rest)
  | c :: rest => (cutColons rest).map fun (a,b) => (c :: a,b)

/-- The generic arguments of a method text: how many there are, and their texts if they are written. -/
structure ArityText where
  arity : Int := 0
  args : List (List Char) := []

def endsMethodName (c : Char) : Bool := c = '<' || c = '\x60' || c = '('

/-- Reads what follows the name of a method up to its parameter list. -/
def readArity (s : String) (tail : List Char) : Except ReadFault (ArityText × List Char) :=
  match tail with
  | '\x60' :: _ =>
    let rest := tail.dropWhile (· ≠ '(')
    if rest.isEmpty then .error (.malformedMethod s)
    else match Text.Decimal.parse ((tail.takeWhile (· ≠ '(')).dropWhile (· = '\x60')) with
      | .ok arity => .ok ({ arity },rest)
      | .error _ => .error (.malformedArity s)
  | '<' :: inner =>
    match beforeClosing tail with
    | none => .error (.unterminatedArguments s)
    | some before =>
      match split ',' (inner.take (before.length - 1)) with
      | none => .error (.unbalancedIn s)
      | some args => .ok ({ arity := args.length, args },tail.drop (before.length + 1))
  | _ => .ok ({},tail)

/-- More generic parameters than a method reference can hold. -/
def arityLimit : Int := 0x100000000000

/-- The text of a method after its declaring type: its name, its generic arguments or their number, and the text
    between the parentheses. -/
structure MemberText where
  name : List Char
  arity : ArityText
  params : List Char

/-- Takes the text of a method after its declaring type apart. -/
def readMember (s : String) (member : List Char) : Except Failure MemberText :=
  let name := member.takeWhile (!endsMethodName ·)
  let tail := member.dropWhile (!endsMethodName ·)
  if name.isEmpty || tail.isEmpty || member.getLast? != some ')' then .error (.read (.malformedMethod s))
  else match readArity s tail with
    | .error f => .error (.read f)
    | .ok (arity,tail) =>
      if tail.head? != some '(' then .error (.read (.malformedMethod s))
      else if arity.arity < 0 || arityLimit ≤ arity.arity then .error (.crash .length)
      else .ok ⟨name,arity,(tail.drop 1).dropLast⟩

/-- Reads the signature of a method of the given declaring type. The method must exist. -/
def readMethodRef (p : Program) (m : ModuleId) (s : String) (declaring : TypeRef) (returnText : List Char)
    (member : MemberText) (id : RefId := default) : Except Failure MethodRef :=
  let generics := (List.range member.arity.arity.toNat).map fun i => "T" ++ toString i
  let typeParams := match declaring.element? with
    | some t => p.typeParams t
    | none => []
  let signature : ParamScope := ⟨typeParams,GenericParam.declare (.reference id) generics⟩
  do
    let returns ← (p.readType m signature returnText).mapError .read
    match split ',' member.params with
    | none => .error (.read (.unbalancedIn s))
    | some paramTexts => do
      let params ← paramTexts.mapM fun text => (p.readType m signature text).mapError .read
      match declaring.element? with
      | none => .error (.read (.methodOnParameter s))
      | some t =>
        let ref : MethodRef := { name := String.ofList member.name, declaring, returns, params, generics, id }
        match p.findMethod? t ref with
        | none => .error (.read (.unresolvedMethod (ref.text p)))
        | some found => .ok { ref with hasThis := !(p.methodAt found).isStatic }

/-- Reads a method: its return type, its declaring type, its name, its generic arguments or their number, and its
    parameter types. -/
def readMethod (p : Program) (m : ModuleId) (scope : ParamScope) (s : String) (id : RefId := default) :
    Except Failure MethodOperand :=
  match cut ' ' (trim s.toList) with
  | none => .error (.read (.methodWithoutReturn s))
  | some (returnText,rest) =>
    match cutColons rest with
    | none => .error (.read (.methodWithoutDeclaring s))
    | some (declaringText,member) => do
      let declaring ← (p.readType m scope declaringText).mapError .read
      let member ← readMember s member
      let ref ← p.readMethodRef m s declaring returnText member id
      if member.arity.args.isEmpty then return .plain ref
      return .applied ref (← member.arity.args.mapM fun text => (p.readType m scope text).mapError .read)

/-- Reads a field: its type, its declaring type and its name. The field must exist. -/
def readField (p : Program) (m : ModuleId) (scope : ParamScope) (s : String) : Except ReadFault FieldRef :=
  match cut ' ' (trim s.toList) with
  | none => .error (.fieldWithoutType s)
  | some (typeText,rest) =>
    match cutColons rest with
    | none => .error (.fieldWithoutDeclaring s)
    | some (declaringText,name) =>
      if name.isEmpty then .error (.fieldWithoutDeclaring s)
      else do
        let declaring ← p.readType m scope declaringText
        let name := String.ofList name
        match declaring.element? with
        | none => .error (.unresolvedField (declaring.text p) name)
        | some t =>
          if ((p.typeAt t).field? name).isNone then .error (.unresolvedField (declaring.text p) name)
          else do
            let fieldType ← p.readType m ⟨p.typeParams t,[]⟩ typeText
            return ⟨name,fieldType,declaring⟩

/-- Reads an instruction. A branch comes with the label that it leads to, and has no operand yet. -/
def readInstruction (p : Program) (m : ModuleId) (scope : ParamScope) (line : List Char) (id : RefId := default) :
    Except Failure (Instruction × Option String) := do
  let line := trim line
  let name := String.ofList (line.takeWhile (· ≠ ' '))
  let operand := trim ((line.dropWhile (· ≠ ' ')).drop 1)
  let some opcode := Opcode.ofName? name | throw (.read (.unknownOpcode name))
  let within (f : ReadFault) : Failure := .read (.inOperand opcode f)
  let operandText := String.ofList operand
  let made (operand : Operand) : Instruction × Option String := ({ opcode, operand },none)
  match opcode.operandKind with
  | .none => if operand.isEmpty then return made .none else throw (.read (.noOperandTaken opcode))
  | .int =>
    match Text.Decimal.parse operand with
    | .ok n => return made (.int n)
    | .error e => throw (within (.number operandText e))
  | .text =>
    match Text.Quoted.decode operand with
    | some t => return made (.text t)
    | none => throw (within .unquotable)
  | .type => return made (.type (← (p.readType m scope operand).mapError within))
  | .method =>
    match p.readMethod m scope operandText id with
    | .ok r => return made (.method r)
    | .error (.error (.cause (.read f))) => throw (within f)
    | .error e => throw e
  | .field => return made (.field (← (p.readField m scope operandText).mapError within))
  | .branch =>
    if operand.isEmpty then throw (.read (.labelNeeded opcode)) else return ({ opcode },some operandText)

/-- Reads an attribute argument that is no type: quoted text, a truth value or a number. -/
def readLiteral (text : List Char) : Except ReadFault AttributeArg :=
  match text with
  | '"' :: _ =>
    match Text.Quoted.decode text with
    | some t => .ok (.text t)
    | none => .error .unquotable
  | _ =>
    let name := String.ofList text
    if name = "true" then .ok (.bool true)
    else if name = "false" then .ok (.bool false)
    else match Text.Decimal.parse text with
      | .ok n => .ok (.int n)
      | .error _ => .error (.unsupportedArgument name)

/-- Reads an attribute argument: a type, quoted text, a truth value or a number. -/
def readAttributeArg (p : Program) (m : ModuleId) (s : String) : Except ReadFault AttributeArg :=
  let text := trim s.toList
  match "typeof(".toList.isPrefixOf? text with
  | some inner =>
    if inner.getLast? = some ')' then (p.readType m {} inner.dropLast).map .type else readLiteral text
  | none => readLiteral text

end Program
end Loom
