import Loom.Program.Lookup

/-!
Values of the machine and the store they live in. Objects, lists and slots are known by their place in the store.
Objects of value types are copied when they are loaded, boxed or unboxed.
-/
namespace Loom.Machine

open Text (Octets)

/-- An object, by its place in the store. -/
structure ObjectId where
  index : Nat
  deriving DecidableEq, Inhabited

/-- A list, by its place in the store. -/
structure ListId where
  index : Nat
  deriving DecidableEq, Inhabited

/-- An argument or local, by its place in the store. -/
structure SlotId where
  index : Nat
  deriving DecidableEq, Inhabited

/-- A value. Two addresses of one slot are told apart by their number. -/
inductive Value where
  | null
  | int (n : Int32)
  | bool (b : Bool)
  | text (t : Octets)
  | object (o : ObjectId)
  | list (l : ListId)
  | address (number : Nat) (slot : SlotId)
  deriving DecidableEq, Inhabited

/-- An instance of a declared type: its type arguments and its fields by name. -/
structure Object where
  type : TypeId
  args : List TypeRef
  fields : List (String × Value)
  deriving Inhabited

/-- A list: the type of its items, if it was given one, and the items. -/
structure ListObject where
  element : TypeRef
  items : Array Value
  deriving Inhabited

/-- The store. -/
structure Heap where
  objects : Array Object := #[]
  lists : Array ListObject := #[]
  slots : Array Value := #[]
  /-- The number of addresses taken. -/
  addresses : Nat := 0
  deriving Inhabited

namespace Heap

def objectAt (h : Heap) (o : ObjectId) : Object := (h.objects[o.index]?).getD default

def listAt (h : Heap) (l : ListId) : ListObject := (h.lists[l.index]?).getD default

def slotAt (h : Heap) (s : SlotId) : Value := (h.slots[s.index]?).getD .null

def addObject (h : Heap) (o : Object) : Value × Heap :=
  (.object ⟨h.objects.size⟩,{ h with objects := h.objects.push o })

def addList (h : Heap) (l : ListObject) : Value × Heap := (.list ⟨h.lists.size⟩,{ h with lists := h.lists.push l })

def addSlot (h : Heap) (v : Value) : SlotId × Heap := (⟨h.slots.size⟩,{ h with slots := h.slots.push v })

def setSlot (h : Heap) (s : SlotId) (v : Value) : Heap := { h with slots := h.slots.setIfInBounds s.index v }

def takeAddress (h : Heap) (s : SlotId) : Value × Heap :=
  (.address h.addresses s,{ h with addresses := h.addresses + 1 })

def field? (h : Heap) (o : ObjectId) (name : String) : Option Value := (h.objectAt o).fields.lookup name

def setField (h : Heap) (o : ObjectId) (name : String) (v : Value) : Heap :=
  { h with objects := h.objects.modify o.index fun d =>
      { d with fields := d.fields.map fun (k,old) => (k,if k = name then v else old) } }

def pushItem (h : Heap) (l : ListId) (v : Value) : Heap :=
  { h with lists := h.lists.modify l.index fun d => { d with items := d.items.push v } }

def load (h : Heap) : Value → Value
  | .address _ s => h.slotAt s
  | v => v

end Heap

namespace Value

/-- The number that a value stands for in arithmetic: truth values count. -/
def int? : Value → Option Int32
  | .int n => some n
  | .bool b => some (if b then 1 else 0)
  | _ => none

/-- The value counts as true in a branch. -/
def isTruthy : Value → Bool
  | .null => false
  | .bool b => b
  | .int n => n != 0
  | _ => true

/-- The values are one number, one text or one object. -/
def isSame (a b : Value) : Bool :=
  match a.int? with
  | some x => b.int? == some x
  | none => a == b

end Value

def refName (p : Program) : TypeRef → String
  | .absent => "System.Object"
  | t => t.fullName p

/-- The name of a declared type applied to arguments. -/
def typeName (p : Program) (t : TypeId) (args : List TypeRef) : String :=
  if args.isEmpty then p.fullName t else p.fullName t ++ "<" ++ ", ".intercalate (args.map (refName p)) ++ ">"

namespace Heap

def format (p : Program) (h : Heap) (v : Value) : Octets :=
  match h.load v with
  | .null => ""
  | .int n => toString n.toInt
  | .bool b => if b then "True" else "False"
  | .text t => t
  | .object o => typeName p (h.objectAt o).type (h.objectAt o).args
  | .list l => "System.Collections.Generic.List<" ++ refName p (h.listAt l).element ++ ">"
  | .address _ _ => "?"

/-- Replaces the values of fields one after another. -/
def mapFields (f : Heap → Value → Option (Value × Heap)) :
    List (String × Value) → Heap → Option (List (String × Value) × Heap)
  | [], h => some ([],h)
  | (name,v) :: rest, h => do
    let (v,h) ← f h v
    let (rest,h) ← mapFields f rest h
    return ((name,v) :: rest,h)

/-- A copy of a value, down to a bounded depth. Objects of value types are copied with their fields. -/
def copyWithin (p : Program) : Nat → Heap → Value → Option (Value × Heap)
  | 0, _, _ => none
  | n + 1, h, .object o =>
    let d := h.objectAt o
    if (p.typeAt d.type).isValueType then do
      let (fields,h) ← mapFields (copyWithin p n) d.fields h
      return h.addObject { d with fields }
    else some (.object o,h)
  | _ + 1, h, v => some (v,h)

/-- Equality of values, down to a bounded depth: field by field for value types. -/
def equalWithin (p : Program) (h : Heap) : Nat → Value → Value → Option Bool
  | 0, _, _ => none
  | n + 1, .object a, .object b =>
    let x := h.objectAt a
    let y := h.objectAt b
    if (p.typeAt x.type).isValueType then
      if x.type = y.type then
        x.fields.foldlM
          (fun equal (name,v) => if equal then equalWithin p h n v ((y.fields.lookup name).getD .null) else some false)
          true
      else some false
    else some (a == b)
  | _ + 1, a, b => some (a.isSame b)

end Heap
end Loom.Machine
