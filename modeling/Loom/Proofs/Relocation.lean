import Loom.Machine.Memory
import Loom.Machine.Native
import Loom.Proofs.Lists

/-!
A store put behind another one. Its objects, lists, slots and addresses are then known by other names, and nothing else
changes: whatever is read from the store, written to it or made in it is the same up to the names.
-/
namespace Loom

open List

theorem modify_append_map {α β : Type} {f : α → α} {g : β → β} {image : α → β} (commutes : ∀ a, g (image a) = image (f a))
    (front : Array β) (xs : Array α) (i : Nat) :
    (front ++ xs.map image).modify (front.size + i) g = front ++ (xs.modify i f).map image := by
  refine Array.ext_getElem? fun k => ?_
  rw [Array.getElem?_modify]
  by_cases low : k < front.size
  · rw [if_neg (by omega),Array.getElem?_append_left low,Array.getElem?_append_left low]
  · have high : front.size ≤ k := Nat.le_of_not_lt low
    rw [Array.getElem?_append_right high,Array.getElem?_append_right high,Array.getElem?_map,Array.getElem?_map,
      Array.getElem?_modify]
    by_cases here : front.size + i = k
    · subst here
      simp [Function.comp_def,commutes]
    · rw [if_neg here,if_neg (by omega)]

namespace Machine
namespace Heap

variable (old : Heap)

def objectId (o : ObjectId) : ObjectId := ⟨old.objects.size + o.index⟩

def listId (l : ListId) : ListId := ⟨old.lists.size + l.index⟩

def slotId (s : SlotId) : SlotId := ⟨old.slots.size + s.index⟩

/-- What a value of a store is called once the store is put behind another one. -/
def rename : Value → Value
  | .object o => .object (old.objectId o)
  | .list l => .list (old.listId l)
  | .address number s => .address (old.addresses + number) (old.slotId s)
  | v => v

def renameField : String × Value → String × Value := Prod.map id old.rename

def renameObject (o : Object) : Object := { o with fields := o.fields.map old.renameField }

def renameList (l : ListObject) : ListObject := { l with items := l.items.map old.rename }

/-- A store put behind another one. -/
def extend (h : Heap) : Heap where
  objects := old.objects ++ h.objects.map old.renameObject
  lists := old.lists ++ h.lists.map old.renameList
  slots := old.slots ++ h.slots.map old.rename
  addresses := old.addresses + h.addresses

variable {old : Heap} {h : Heap}

theorem extend_empty : old.extend {} = old := by
  cases old
  simp [extend]

theorem rename_eq_null {v : Value} : old.rename v = .null ↔ v = .null := by cases v <;> simp [rename]

theorem objectId_inj {a b : ObjectId} : old.objectId a = old.objectId b ↔ a = b := by
  cases a
  cases b
  simp [objectId]

theorem objectId_beq (a b : ObjectId) : (old.objectId a == old.objectId b) = (a == b) := by
  rw [Bool.eq_iff_iff,beq_iff_eq,beq_iff_eq,objectId_inj]

theorem listId_inj {a b : ListId} : old.listId a = old.listId b ↔ a = b := by
  cases a
  cases b
  simp [listId]

theorem slotId_inj {a b : SlotId} : old.slotId a = old.slotId b ↔ a = b := by
  cases a
  cases b
  simp [slotId]

theorem rename_inj {a b : Value} : old.rename a = old.rename b ↔ a = b := by
  cases a <;> cases b <;> simp [rename,objectId_inj,listId_inj,slotId_inj]

@[simp] theorem int?_rename (v : Value) : (old.rename v).int? = v.int? := by cases v <;> rfl

@[simp] theorem isTruthy_rename (v : Value) : (old.rename v).isTruthy = v.isTruthy := by cases v <;> rfl

@[simp] theorem isSame_rename (a b : Value) : (old.rename a).isSame (old.rename b) = a.isSame b := by
  rw [Value.isSame,Value.isSame,int?_rename,int?_rename]
  cases a.int? with
  | some x => rfl
  | none => rw [Bool.eq_iff_iff,beq_iff_eq,beq_iff_eq,rename_inj]

@[simp] theorem objectAt_extend (o : ObjectId) :
    (old.extend h).objectAt (old.objectId o) = old.renameObject (h.objectAt o) := by
  simp only [objectAt,extend,objectId,Array.getElem?_append_right (Nat.le_add_right _ _),Nat.add_sub_cancel_left,
    Array.getElem?_map]
  cases h.objects[o.index]? <;> rfl

@[simp] theorem listAt_extend (l : ListId) : (old.extend h).listAt (old.listId l) = old.renameList (h.listAt l) := by
  simp only [listAt,extend,listId,Array.getElem?_append_right (Nat.le_add_right _ _),Nat.add_sub_cancel_left,
    Array.getElem?_map]
  cases h.lists[l.index]? with
  | none => exact congrArg (ListObject.mk _) Array.map_empty.symm
  | some d => rfl

@[simp] theorem slotAt_extend (s : SlotId) : (old.extend h).slotAt (old.slotId s) = old.rename (h.slotAt s) := by
  simp only [slotAt,extend,slotId,Array.getElem?_append_right (Nat.le_add_right _ _),Nat.add_sub_cancel_left,
    Array.getElem?_map]
  cases h.slots[s.index]? <;> rfl

@[simp] theorem field?_extend (o : ObjectId) (name : String) :
    (old.extend h).field? (old.objectId o) name = (h.field? o name).map old.rename := by
  rw [field?,objectAt_extend]
  exact lookup_map_snd old.rename name _

@[simp] theorem load_extend (v : Value) : (old.extend h).load (old.rename v) = old.rename (h.load v) := by
  cases v with
  | address number s => exact slotAt_extend s
  | _ => rfl

@[simp] theorem format_extend (p : Program) (v : Value) : (old.extend h).format p (old.rename v) = h.format p v := by
  rw [format,format,load_extend]
  cases h.load v with
  | object o => simp only [rename,objectAt_extend]; rfl
  | list l => simp only [rename,listAt_extend]; rfl
  | _ => rfl

theorem addObject_extend (o : Object) :
    (old.extend h).addObject (old.renameObject o) = Prod.map old.rename old.extend (h.addObject o) := by
  simp [addObject,extend,rename,objectId]

theorem addList_extend (old h : Heap) (l : ListObject) :
    (old.extend h).addList (old.renameList l) = Prod.map old.rename old.extend (h.addList l) := by
  simp [addList,extend,rename,listId]

theorem addSlot_extend (v : Value) :
    (old.extend h).addSlot (old.rename v) = Prod.map old.slotId old.extend (h.addSlot v) := by
  simp [addSlot,extend,slotId]

theorem takeAddress_extend (s : SlotId) :
    (old.extend h).takeAddress (old.slotId s) = Prod.map old.rename old.extend (h.takeAddress s) := by
  simp [takeAddress,extend,rename,Nat.add_assoc]

theorem setSlot_extend (s : SlotId) (v : Value) :
    (old.extend h).setSlot (old.slotId s) (old.rename v) = old.extend (h.setSlot s v) := by
  simp only [setSlot,extend,slotId,Array.setIfInBounds_append_right (Nat.le_add_right _ _),Nat.add_sub_cancel_left,
    Array.map_setIfInBounds]

theorem setField_extend (o : ObjectId) (name : String) (v : Value) :
    (old.extend h).setField (old.objectId o) name (old.rename v) = old.extend (h.setField o name v) := by
  simp only [setField,extend,objectId]
  rw [modify_append_map fun d => ?_]
  simp only [renameObject,map_map]
  refine congrArg (Object.mk d.type d.args) (map_congr_left fun (key,w) _ => ?_)
  by_cases this : key = name <;> simp [renameField,this]

theorem pushItem_extend (l : ListId) (v : Value) :
    (old.extend h).pushItem (old.listId l) (old.rename v) = old.extend (h.pushItem l v) := by
  simp only [pushItem,extend,listId]
  rw [modify_append_map fun d => ?_]
  simp [renameList]

theorem mapFields_extend {f : Heap → Value → Option (Value × Heap)}
    (each : ∀ h v, f (old.extend h) (old.rename v) = (f h v).map (Prod.map old.rename old.extend))
    (fields : List (String × Value)) (h : Heap) :
    mapFields f (fields.map old.renameField) (old.extend h) =
      (mapFields f fields h).map (Prod.map (map old.renameField) old.extend) := by
  induction fields generalizing h with
  | nil => rfl
  | cons field rest ih =>
    obtain ⟨name,v⟩ := field
    rw [map_cons,renameField,Prod.map_apply,id_eq,← renameField,mapFields,mapFields,each]
    cases f h v with
    | none => rfl
    | some made =>
      obtain ⟨v,h⟩ := made
      simp only [Option.map_some,Option.bind_eq_bind,Option.bind_some,Prod.map_apply,ih]
      cases mapFields f rest h <;> rfl

theorem copyWithin_extend (p : Program) (n : Nat) (h : Heap) (v : Value) :
    (old.extend h).copyWithin p n (old.rename v) = (h.copyWithin p n v).map (Prod.map old.rename old.extend) := by
  induction n generalizing h v with
  | zero => rfl
  | succ n ih =>
    cases v with
    | object o =>
      show copyWithin p (n + 1) (old.extend h) (.object (old.objectId o)) = _
      rw [copyWithin,copyWithin,objectAt_extend]
      by_cases copied : (p.typeAt (h.objectAt o).type).isValueType = true
      · simp only [renameObject,copied,if_true,mapFields_extend ih]
        cases mapFields (copyWithin p n) (h.objectAt o).fields h with
        | none => rfl
        | some made =>
          obtain ⟨fields,h'⟩ := made
          exact congrArg some (addObject_extend { h.objectAt o with fields })
      · simp only [renameObject,copied]
        rfl
    | _ => rfl

theorem equalWithin_extend (p : Program) (h : Heap) (n : Nat) (a b : Value) :
    (old.extend h).equalWithin p n (old.rename a) (old.rename b) = h.equalWithin p n a b := by
  induction n generalizing a b with
  | zero => rfl
  | succ n ih =>
    cases a with
    | object a =>
      cases b with
      | object b =>
        show equalWithin p (old.extend h) (n + 1) (.object (old.objectId a)) (.object (old.objectId b)) = _
        have field : ∀ name, (((h.objectAt b).fields.map old.renameField).lookup name).getD .null =
            old.rename (((h.objectAt b).fields.lookup name).getD .null) := fun name => by
          rw [renameField,lookup_map_snd]
          cases (h.objectAt b).fields.lookup name <;> rfl
        rw [equalWithin,equalWithin,objectAt_extend,objectAt_extend]
        simp only [renameObject,foldlM_map,field]
        simp only [renameField,Prod.map_fst,Prod.map_snd,id_eq,ih,objectId_beq]
      | _ => exact congrArg some (isSame_rename (.object a) _)
    | _ => exact congrArg some (isSame_rename _ b)

end Heap

open Heap

variable {old : Heap}

theorem addFields_extend {zero : TypeRef → Heap → Option (Value × Heap)}
    (each : ∀ t h, zero t (old.extend h) = (zero t h).map (Prod.map old.rename old.extend)) (fields : List FieldDecl)
    (done : List (String × Value)) (h : Heap) :
    addFields zero fields (done.map old.renameField) (old.extend h) =
      (addFields zero fields done h).map (Prod.map (map old.renameField) old.extend) := by
  induction fields generalizing done h with
  | nil => rfl
  | cons f rest ih =>
    have there : ((done.map old.renameField).lookup f.name).isSome = (done.lookup f.name).isSome := by
      rw [renameField,lookup_map_snd,Option.isSome_map]
    rw [addFields,addFields,there,each]
    split
    · exact ih done h
    · cases zero f.type h with
      | none => rfl
      | some made =>
        obtain ⟨v,h⟩ := made
        have added : done.map old.renameField ++ [(f.name,old.rename v)] =
            (done ++ [(f.name,v)]).map old.renameField := by rw [map_append]; rfl
        simp only [Option.map_some,Option.bind_eq_bind,Option.bind_some,Prod.map_apply,added]
        exact ih _ h

/-- What is made in a store behind another one is what is made in it alone. -/
theorem zero_extend (p : Program) (n : Nat) :
    (∀ t h, zeroWithin p n t (old.extend h) = (zeroWithin p n t h).map (Prod.map old.rename old.extend)) ∧
    (∀ t args h, newObjectWithin p n t args (old.extend h) =
      (newObjectWithin p n t args h).map (Prod.map old.rename old.extend)) ∧
    (∀ t args done h, zeroFieldsWithin p n t args (done.map old.renameField) (old.extend h) =
      (zeroFieldsWithin p n t args done h).map (Prod.map (map old.renameField) old.extend)) := by
  induction n with
  | zero => exact ⟨fun _ _ => rfl,fun _ _ _ => rfl,fun _ _ _ _ => rfl⟩
  | succ n ih =>
    obtain ⟨zero,newObject,zeroFields⟩ := ih
    refine ⟨fun t h => ?_,fun t args h => ?_,fun t args done h => ?_⟩
    · rw [zeroWithin,zeroWithin]
      cases t.element? with
      | none => rfl
      | some d =>
        simp only
        split
        · rfl
        · rfl
        · rfl
        · split
          · exact newObject d t.arguments h
          · rfl
    · have fields := zeroFields t args [] h
      rw [map_nil] at fields
      rw [newObjectWithin,newObjectWithin,fields]
      cases zeroFieldsWithin p n t args [] h with
      | none => rfl
      | some made =>
        obtain ⟨fields,h⟩ := made
        exact congrArg some (addObject_extend ⟨t,args,fields⟩)
    · rw [zeroFieldsWithin,zeroFieldsWithin,addFields_extend fun t h => zero _ h]
      cases addFields (fun u => zeroWithin p n (Context.subst { typeArgs := args } u))
        ((p.typeAt t).fields.filter (!·.isStatic)) done h with
      | none => rfl
      | some made =>
        obtain ⟨done,h⟩ := made
        simp only [Option.map_some,Option.bind_eq_bind,Option.bind_some,Prod.map_apply]
        cases base? p t args with
        | none => rfl
        | some base => exact zeroFields base.1 base.2 done h

/-- The reply of an operation on a store that is put behind another one. -/
def Reply.rename (old : Heap) : Reply → Reply
  | .value v h => .value (old.rename v) (old.extend h)
  | r => r

namespace Native

theorem onFirst_rename {args : List Value} {f g : Value → Reply} (each : ∀ v, g (old.rename v) = (f v).rename old) :
    onFirst (args.map old.rename) g = (onFirst args f).rename old := by
  cases args with
  | nil => rfl
  | cons v rest => exact each v

theorem onList_extend {p : Program} {h : Heap} {this : Value} {f g : ListId → Reply}
    (each : ∀ l, g (old.listId l) = (f l).rename old) :
    onList p (old.extend h) (old.rename this) g = (onList p h this f).rename old := by
  cases this with
  | list l => exact each l
  | _ => exact congrArg (fun t => Reply.fault (.notList t)) (format_extend p _)

theorem itemAt?_rename (items : Array Value) (v : Value) :
    itemAt? (items.map old.rename) (old.rename v) = (itemAt? items v).map old.rename := by
  cases v with
  | int i =>
    show (if i < 0 then none else (items.map old.rename)[i.toNatClampNeg]?) = _
    rw [itemAt?,Array.getElem?_map]
    split <;> rfl
  | _ => rfl

theorem run_extend (p : Program) (bound : Nat) (c : Context) (h : Heap) (this : Value) (args : List Value) (op : Native) :
    op.run p bound c (old.extend h) (old.rename this) (args.map old.rename) =
      (op.run p bound c h this args).rename old := by
  cases op with
  | objectConstructor => rfl
  | equals =>
    refine onFirst_rename fun v => ?_
    rw [load_extend,equalWithin_extend]
    cases h.equalWithin p bound this (h.load v) <;> rfl
  | toText =>
    rw [run,run,format_extend]
    rfl
  | concat =>
    rw [run,run,foldl_map]
    simp only [format_extend]
    rfl
  | textLength =>
    cases this with
    | text t => rfl
    | _ => exact congrArg (fun t => Reply.fault (.lengthOf t)) (format_extend p _)
  | listConstructor =>
    have added := addList_extend old h ⟨c.typeArgs.headD .absent,#[]⟩
    rw [renameList,Array.map_empty] at added
    rw [run,run,added]
    rfl
  | listAdd => exact onList_extend fun l => onFirst_rename fun v => by rw [pushItem_extend]; rfl
  | listCount => exact onList_extend fun l => by rw [listAt_extend,renameList,Array.size_map]; rfl
  | listItem =>
    refine onList_extend fun l => onFirst_rename fun v => ?_
    simp only [listAt_extend,renameList,itemAt?_rename,format_extend,Array.size_map]
    cases itemAt? (h.listAt l).items v with
    | none => rfl
    | some item =>
      simp only [Option.map_some,copyWithin_extend]
      cases h.copyWithin p bound item <;> rfl
  | resolve => rfl

end Native
end Machine
end Loom
