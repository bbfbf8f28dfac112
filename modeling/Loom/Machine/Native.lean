import Loom.Machine.State

/-!
Operations that stand in for the bodies of native methods.
-/
namespace Loom.Machine

open Text (Octets)

inductive Native where
  | objectConstructor
  | equals
  | toText
  | concat
  | textLength
  | listConstructor
  | listAdd
  | listCount
  | listItem
  | resolve
  deriving DecidableEq, Inhabited

/-- The operation that a declaration names. -/
def Native.ofKey? : String → Option Native
  | "Object::.ctor" => some .objectConstructor
  | "Object::Equals" => some .equals
  | "Object::ToString" => some .toText
  | "Int32::ToString" => some .toText
  | "Boolean::ToString" => some .toText
  | "String::Concat" => some .concat
  | "String::get_Length" => some .textLength
  | "List::.ctor" => some .listConstructor
  | "List::Add" => some .listAdd
  | "List::get_Count" => some .listCount
  | "List::get_Item" => some .listItem
  | "Implicitly::Resolve" => some .resolve
  | _ => none

/-- What a native operation answers. -/
inductive Reply where
  | value (v : Value) (h : Heap)
  | fault (f : Fault)
  /-- An argument is missing. -/
  | crash
  | unbounded

namespace Native

/-- Goes on with a list, or answers that there is none. -/
def onList (p : Program) (h : Heap) (this : Value) (f : ListId → Reply) : Reply :=
  match this with
  | .list l => f l
  | v => .fault (.notList (h.format p v))

/-- Goes on with the first argument. -/
def onFirst (args : List Value) (f : Value → Reply) : Reply :=
  match args with
  | v :: _ => f v
  | [] => .crash

def itemAt? (items : Array Value) : Value → Option Value
  | .int i => if i < 0 then none else items[i.toNatClampNeg]?
  | _ => none

def run (p : Program) (bound : Nat) (c : Context) (h : Heap) (this : Value) (args : List Value) : Native → Reply
  | .objectConstructor => .value .null h
  | .equals => onFirst args fun v =>
    match h.equalWithin p bound this (h.load v) with
    | some b => .value (.bool b) h
    | none => .unbounded
  | .toText => .value (.text (h.format p this)) h
  | .concat => .value (.text (args.foldl (fun t v => t ++ h.format p v) ⟨[]⟩)) h
  | .textLength =>
    match this with
    | .text t => .value (.int (.ofNat t.length)) h
    | v => .fault (.lengthOf (h.format p v))
  | .listConstructor =>
    let (v,h) := h.addList ⟨c.typeArgs.headD .absent,#[]⟩
    .value v h
  | .listAdd => onList p h this fun l => onFirst args fun v => .value .null (h.pushItem l v)
  | .listCount => onList p h this fun l => .value (.int (.ofNat (h.listAt l).items.size)) h
  | .listItem => onList p h this fun l => onFirst args fun v =>
    let items := (h.listAt l).items
    match itemAt? items v with
    | none => .fault (.index (h.format p v) items.size)
    | some item =>
      match Heap.copyWithin p bound h item with
      | some (v,h) => .value v h
      | none => .unbounded
  | .resolve => .fault (.notWoven ((c.methodArgs.head?.map (·.fullName p)).getD "?"))

end Native
end Loom.Machine
