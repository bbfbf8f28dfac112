import Loom.Proofs.Lineage
import Loom.Proofs.Restoring

/-!
What a document brings. Everything that a linked module mentions was found by its name when the document was read, and
its names are those of the document. So a module starts traced, and its types are titled if the names of the document are
plain.
-/
namespace Loom

open String List Program TypeRef TypeDecl
open Loom.Except (bind_eq_ok mapError_eq_ok)
open Text (isWord)

variable {n : Nat} {K : TypeId → Prop} {home : ModuleId} {p q r s : Program}
variable {name site : String} {d t : TypeId} {text : List Char} {member : MemberText}

theorem Text.Decimal.bounds_of_parse {cs : List Char} {k : Int} (read : parse cs = .ok k) :
    -0x8000000000000000 ≤ k ∧ k < 0x8000000000000000 := by
  unfold parse at read
  dsimp only at read
  repeat' split at read
  all_goals first | (cases read; omega) | cases read

namespace Program

theorem readMember_named (read : readMember site text = .ok member) : String.ofList member.name ≠ "" := by
  unfold readMember at read
  dsimp only at read
  split at read
  · cases read
  · next filled =>
    repeat' split at read
    all_goals cases read
    simp only [Bool.or_eq_true,not_or] at filled
    simpa [String.ext_iff] using filled.1.1

theorem bounds_of_readLiteral {k : Int} (read : readLiteral text = .ok (.int k)) :
    -0x8000000000000000 ≤ k ∧ k < 0x8000000000000000 := by
  unfold readLiteral at read
  split at read
  · split at read
    · cases read
    · cases read
  · dsimp only at read
    split at read
    · cases read
    · split at read
      · cases read
      · split at read
        · next parsed =>
          cases read
          exact Text.Decimal.bounds_of_parse parsed
        · cases read

abbrev Nameable (p : Program) (home : ModuleId) (d : TypeId) : Prop := p.findType? home (p.fullName d) = some d

/-- What can be named in a module is known, and its members have plain names. -/
structure Reach (home : ModuleId) (K : TypeId → Prop) (s : Program) : Prop where
  known : ∀ d, s.Nameable home d → K d
  methods : ∀ d, K d → ∀ m ∈ (s.typeAt d).methods, isWord m.name = true
  fields : ∀ d, K d → ∀ f ∈ (s.typeAt d).fields, isWord f.name = true

namespace Reach

variable (reach : s.Reach home K)
variable {scope : ParamScope} {id : RefId}
include reach

theorem found (found : s.findType? home name = some d) : K d :=
  reach.known d (by rw [Nameable,fullName_of_findType? found]; exact found)

theorem readType_mentions {t : TypeRef} (read : s.readType home scope text = .ok t) : t.Mentions K :=
  fun u within d element => reach.known d (readType_found read u within d element)

theorem readTypeName_known (read : s.readTypeName home text = .ok d) : K d := by
  rw [readTypeName] at read
  split at read
  · next found =>
    cases read
    exact reach.found found
  · cases read

theorem readMethodRef_traced {declaring : TypeRef} {returnText : List Char} {r : MethodRef}
    (mentions : declaring.Mentions K) (read : s.readMethodRef home site declaring returnText member id = .ok r) :
    (∀ u ∈ r.declaring :: r.returns :: r.params, u.Mentions K) ∧ r.name = ofList member.name ∧
      isWord r.name = true := by
  obtain ⟨d,returns,texts,params,found,element,returnsRead,-,paramsRead,lookup,rfl⟩ := readMethodRef_eq_ok.mp read
  refine ⟨forall_mem_cons.mpr ⟨mentions,forall_mem_cons.mpr ⟨reach.readType_mentions returnsRead,?_⟩⟩,rfl,?_⟩
  · intro u among
    obtain ⟨text,-,read⟩ := left_of_forall₂ paramsRead among
    exact reach.readType_mentions read
  · obtain ⟨among,name,-⟩ := findMethod?_eq_some lookup
    obtain ⟨owner,inside⟩ := mem_methodsOf.mp among
    rw [← owner] at inside
    show isWord (sought member declaring returns params id).name = true
    rw [← name]
    exact reach.methods _ (owner ▸ mentions.element element) _ (mem_of_getElem? (getElem?_methodAt inside))

theorem readMethod_traced {text : String} {o : MethodOperand} (read : s.readMethod home scope text id = .ok o) :
    (∀ u ∈ (Operand.method o).refs, u.Mentions K) ∧ (Operand.method o).Worded := by
  obtain ⟨_,_,-,_,_,-,declaring,declaringRead,member,memberRead,r,refRead,read⟩ := readMethod_eq_ok.mp read
  obtain ⟨front,name,word⟩ := reach.readMethodRef_traced (reach.readType_mentions declaringRead) refRead
  have named : r.name ≠ "" := by
    rw [name]
    exact readMember_named memberRead
  split at read
  · rw [← read]
    exact ⟨front,named,word⟩
  · next some =>
    obtain ⟨args,each,rfl⟩ := read
    refine ⟨fun u among => ?_,named,word,?_⟩
    · have among : u ∈ (r.declaring :: r.returns :: r.params) ++ args := among
      rcases mem_append.mp among with inside | arg
      · exact front u inside
      · obtain ⟨text,-,read⟩ := left_of_forall₂ each arg
        exact reach.readType_mentions read
    · rintro rfl
      exact some (isEmpty_iff.mpr (forall₂_nil_right_iff.mp each))

theorem readField_traced {text : String} {f : FieldRef} (read : s.readField home scope text = .ok f) :
    (∀ u ∈ (Operand.field f).refs, u.Mentions K) ∧ (Operand.field f).Worded := by
  obtain ⟨_,_,-,_,name,-,filled,declaring,declaringRead,d,element,present,t,typeRead,rfl⟩ :=
    readField_eq_ok.mp read
  have mentions := reach.readType_mentions declaringRead
  refine ⟨?_,by simpa [String.ext_iff] using filled,?_⟩
  · simp only [Operand.refs,forall_mem_cons]
    exact ⟨mentions,reach.readType_mentions typeRead,forall_mem_nil _⟩
  · obtain ⟨field,found⟩ := Option.isSome_iff_exists.mp present
    have same := find?_some found
    show isWord (String.ofList name) = true
    rw [← eq_of_beq same]
    exact reach.fields d (mentions.element element) field (mem_of_find?_eq_some found)

theorem readInstruction_traced {line : List Char} {i : Instruction} {label : Option String}
    (read : s.readInstruction home scope line id = .ok (i,label)) : i.Traced K := by
  obtain ⟨named,operand⟩ := readInstruction_eq_ok.mp read
  suffices inner : (∀ u ∈ i.operand.refs, u.Mentions K) ∧ i.operand.Worded from
    ⟨mem_of_find?_eq_some named,inner.1,inner.2⟩
  generalize i.opcode.operandKind = kind, i.operand = o at operand
  cases operand with
  | type inner => exact ⟨forall_mem_singleton.mpr (reach.readType_mentions inner),trivial⟩
  | method inner => exact reach.readMethod_traced inner
  | field inner => exact reach.readField_traced inner
  | _ => exact ⟨forall_mem_nil _,trivial⟩

theorem readAttribute_traced {doc : AttributeDoc} {a : Attribute}
    (read : Document.readAttribute s home site doc = .ok a) : a.Traced K := by
  rw [Document.readAttribute] at read
  obtain ⟨type,typeRead,read⟩ := bind_eq_ok.mp read
  obtain ⟨args,argsRead,⟨⟩⟩ := bind_eq_ok.mp read
  have each (arg : AttributeArg) (member : arg ∈ args) : ∃ text, s.readAttributeArg home text = .ok arg := by
    obtain ⟨text,-,read⟩ := left_of_forall₂ (Except.mapM_eq_ok.mp argsRead) member
    exact ⟨text,mapError_eq_ok.mp read⟩
  refine ⟨reach.readTypeName_known (mapError_eq_ok.mp typeRead),fun u member => ?_,fun k member => ?_⟩
  · obtain ⟨text,read⟩ := each _ member
    unfold readAttributeArg at read
    simp only at read
    split at read
    · split at read
      · obtain ⟨v,typeRead,⟨⟩⟩ := Except.map_eq_ok.mp read
        exact reach.readType_mentions typeRead
      · exact absurd read (readLiteral_ne_type _ _)
    · exact absurd read (readLiteral_ne_type _ _)
  · obtain ⟨text,read⟩ := each _ member
    unfold readAttributeArg at read
    simp only at read
    split at read
    · split at read
      · obtain ⟨v,-,⟨⟩⟩ := Except.map_eq_ok.mp read
      · exact bounds_of_readLiteral read
    · exact bounds_of_readLiteral read

theorem defaultBase_mentions (t : TypeId) : (s.defaultBase home t).Mentions K := by
  rw [defaultBase]
  split
  · exact mentions_absent
  · split
    · next found => exact mentions_decl (reach.found found)
    · exact mentions_absent

theorem readMembers_traced {doc : TypeDoc} {members : Document.TypeMembers}
    (words : ∀ f ∈ doc.fields, isWord f.name = true) (read : Document.readMembers s home t doc = .ok members) :
    members.base.Mentions K ∧ (∀ u ∈ members.interfaces, u.Mentions K) ∧ (∀ a ∈ members.attributes, a.Traced K) ∧
      ∀ f ∈ members.fields, f.Traced K := by
  obtain ⟨base,interfaces,attributes,fields⟩ := Document.readMembers_eq_ok.mp read
  refine ⟨?_,fun u member => ?_,fun a member => ?_,fun f member => ?_⟩
  · rw [Document.readBase] at base
    split at base
    · rw [← Except.ok.inj base]
      exact reach.defaultBase_mentions t
    · exact reach.readType_mentions (mapError_eq_ok.mp base)
  · obtain ⟨text,-,read⟩ := left_of_forall₂ interfaces member
    exact reach.readType_mentions read
  · obtain ⟨doc,-,read⟩ := left_of_forall₂ attributes member
    exact reach.readAttribute_traced read
  · obtain ⟨d,among,name,read,-⟩ := left_of_forall₂ fields member
    exact ⟨name ▸ words d among,reach.readType_mentions read⟩

end Reach
end Program

namespace Document

abbrev Named (n : Nat) (home : ModuleId) (r : Program) : TypeId → Prop := Known n (r.Nameable home)

/-- The other types that a module can name have members with plain names. -/
def ForeignPlain (n : Nat) (home : ModuleId) (r : Program) : Prop :=
  ∀ d : TypeId, d.index < n → r.Nameable home d →
    (∀ m ∈ (r.typeAt d).methods, isWord m.name = true) ∧ ∀ f ∈ (r.typeAt d).fields, isWord f.name = true

/-- What a module can name while its members and bodies are read: the other modules are as they were, and what was read is
    traced. -/
theorem ForeignPlain.reach (plain : ForeignPlain n home r) (agree : Agree header r s) (modules : s.modules = r.modules)
    (old : ∀ t : TypeId, t.index < n → s.typeAt t = r.typeAt t) (new : ∀ t : TypeId, n ≤ t.index → (s.typeAt t).Traced K) :
    s.Reach home (Named n home r) := by
  have members (d : TypeId) (known : Named n home r d) : (∀ m ∈ (s.typeAt d).methods, isWord m.name = true) ∧
      ∀ f ∈ (s.typeAt d).fields, isWord f.name = true := by
    by_cases own : n ≤ d.index
    · exact ⟨fun m member => ((new d own).methods m member).worded,fun f member => ((new d own).fields f member).worded⟩
    · rw [old d (Nat.lt_of_not_le own)]
      exact plain d (Nat.lt_of_not_le own) (known.resolve_left own)
  refine ⟨fun d found => .inr ?_,fun d known => (members d known).1,fun d known => (members d known).2⟩
  rw [Nameable,agree.findType?_eq modules,agree.fullName_eq] at found
  exact found

section Reach

variable (reach : s.Reach home K)
include reach

theorem Signs.traced {id : MethodId} {doc : MethodDoc} {d : MethodDecl} (signs : Signs s home id doc d)
    (word : isWord doc.name = true) : d.Traced K := by
  refine ⟨by rw [signs.name]; exact word,fun named => ?_,?_,fun u member => ?_⟩
  · obtain ⟨flags,-,same⟩ := signs.flags
    rw [same,if_pos (signs.name ▸ named)]
    simp [MethodFlags.has_insert]
  · rcases signs.returns with ⟨-,absent⟩ | ⟨-,u,read,same⟩
    · rw [absent]
      exact mentions_absent
    · rw [same]
      split
      · exact mentions_absent
      · exact reach.readType_mentions read
  · obtain ⟨param,among,rfl⟩ := mem_map.mp member
    obtain ⟨text,-,-,read⟩ := left_of_forall₂ signs.params among
    exact reach.readType_mentions read

theorem Tells.traced {pending : PendingType} {d : TypeDecl} (tells : Tells s home pending d)
    (fields : ∀ f ∈ pending.doc.fields, isWord f.name = true)
    (words : ∀ m ∈ pending.doc.methods, isWord m.name = true) : d.Traced K := by
  obtain ⟨members,read,same⟩ := tells.members
  obtain ⟨base,interfaces,attributes,fields⟩ := reach.readMembers_traced fields read
  rw [same]
  refine ⟨base,interfaces,fields,attributes,fun m member => ?_⟩
  obtain ⟨⟨doc,k⟩,listed,signs⟩ := left_of_forall₂ tells.methods member
  exact signs.traced reach (words doc (fst_mem_of_mem_zipIdx listed))

theorem Spoken.traced {pending : PendingMethod} {b : Body} (spoken : Spoken s home pending q)
    (filled : (q.methodAt pending.id).body = some b) : q.BodyTraced K b := by
  rcases spoken with ⟨-,absent⟩ | ⟨-,locals,t,start,recites,body,items⟩
  · rw [absent] at filled
    cases filled
  · rw [body] at filled
    cases filled
    refine ⟨fun u member => ?_,fun i member => ?_⟩
    · obtain ⟨text,-,read⟩ := left_of_forall₂ recites.locals member
      exact reach.readType_mentions read
    · obtain ⟨above,below⟩ := mem_block.mp member
      have within : i.index - start < t.items.length := by omega
      have place : (⟨start + (i.index - start)⟩ : InstructionId) = i := congrArg InstructionId.mk (by omega)
      have settled := (items _ _ (getElem?_eq_getElem within)).2
      have traced : t.items[i.index - start].1.Traced K :=
        Transcript.forall_items (P := fun _ x => x.1.Traced K) (fun _ _ _ read => reach.readInstruction_traced read)
          recites.lines nofun _ _ (getElem?_eq_getElem within)
      rw [← place,settled,Transcript.settle]
      split
      · exact ⟨traced.known,forall_mem_nil _,trivial⟩
      · exact traced

end Reach

end Document

/-- The names that a document gives a type and its members are plain. -/
structure TypeDoc.Worded (d : TypeDoc) : Prop where
  space : isWord d.space = true
  name : isWord d.name = true
  fields : ∀ f ∈ d.fields, isWord f.name = true
  methods : ∀ m ∈ d.methods, isWord m.name = true

mutual
/-- Every name in the document of a type is made of letters, digits, underscores and dots. -/
def TypeDoc.isPlain : TypeDoc → Bool
  | ⟨space,name,_,_,_,_,_,_,fields,methods,nested⟩ =>
    isWord space && isWord name && fields.all (fun f => isWord f.name) &&
      methods.all (fun m => isWord m.name) && arePlain nested
def TypeDoc.arePlain : List (Option TypeDoc) → Bool
  | [] => true
  | none :: rest => arePlain rest
  | some d :: rest => d.isPlain && arePlain rest
end

theorem TypeDoc.isPlain_iff {d : TypeDoc} : d.isPlain = true ↔ d.Worded ∧ arePlain d.nested = true := by
  obtain ⟨space,name,declaredBy,flagNames,generics,base,interfaces,attributes,fields,methods,nested⟩ := d
  rw [isPlain]
  simp only [Bool.and_eq_true,all_eq_true]
  constructor
  · rintro ⟨⟨⟨⟨spaceWord,nameWord⟩,fieldWords⟩,methodWords⟩,inner⟩
    exact ⟨⟨spaceWord,nameWord,fieldWords,methodWords⟩,inner⟩
  · rintro ⟨⟨spaceWord,nameWord,fieldWords,methodWords⟩,inner⟩
    exact ⟨⟨⟨⟨spaceWord,nameWord⟩,fieldWords⟩,methodWords⟩,inner⟩

namespace Document

/-- Every name of a namespace, type, method or field is made of letters, digits, underscores and dots. -/
def isPlain (doc : Document) : Bool := TypeDoc.arePlain doc.types

mutual

theorem declareType_worded (doc : TypeDoc) {o : Option TypeId} {p q : Program} {pending : List PendingType}
    (plain : doc.isPlain = true) (done : (declareType home o doc).run p = .ok (pending,q)) :
    ∀ t ∈ pending, t.doc.Worded := by
  obtain ⟨flags,later,-,-,nestedRun,rfl⟩ := declareType_eq_ok done
  obtain ⟨worded,inner⟩ := TypeDoc.isPlain_iff.mp plain
  refine forall_mem_cons.mpr ⟨worded,?_⟩
  match doc, inner, nestedRun with
  | ⟨_,_,_,_,_,_,_,_,_,_,nested⟩, inner, nestedRun =>
    exact declareNested_worded nested inner nestedRun

theorem declareNested_worded (docs : List (Option TypeDoc)) {outer : TypeId} {p q : Program} {pending : List PendingType}
    (plain : TypeDoc.arePlain docs = true) (done : (declareNested home outer docs).run p = .ok (pending,q)) :
    ∀ t ∈ pending, t.doc.Worded := by
  match docs with
  | [] =>
    rw [declareNested] at done
    obtain ⟨rfl,-⟩ := Linkage.run_pure_eq_ok.mp done
    exact forall_mem_nil _
  | none :: rest =>
    obtain ⟨_,_,_,_,⟨⟩,-⟩ := declareNested_cons_eq_ok done
  | some doc :: rest =>
    obtain ⟨_,first,r,later,⟨⟩,-,firstRun,laterRun,rfl⟩ := declareNested_cons_eq_ok done
    rw [TypeDoc.arePlain,Bool.and_eq_true] at plain
    exact forall_mem_append.mpr ⟨declareType_worded doc plain.1 firstRun,declareNested_worded rest plain.2 laterRun⟩

end

theorem declareTypes_worded {docs : List (Option TypeDoc)} {pending : List PendingType}
    (plain : TypeDoc.arePlain docs = true) (done : (declareTypes home docs).run p = .ok (pending,q)) :
    ∀ t ∈ pending, t.doc.Worded := by
  induction docs generalizing p pending with
  | nil =>
    obtain ⟨rfl,-⟩ := Linkage.run_pure_eq_ok.mp done
    exact forall_mem_nil _
  | cons doc rest ih =>
    obtain ⟨d,first,r,later,rfl,firstRun,laterRun,rfl⟩ := declareTypes_cons_eq_ok done
    rw [TypeDoc.arePlain,Bool.and_eq_true] at plain
    exact forall_mem_append.mpr ⟨declareType_worded d plain.1 firstRun,ih plain.2 laterRun⟩

end Document

theorem tidy_of_word (word : isWord name = true) : Text.Tidy name.toList := by
  rw [isWord,all_eq_true] at word
  exact Text.tidy_of_nameChars fun c member => Text.isNameChar_of_isWordChar (word c member)

theorem title_of_word (word : isWord name = true) (filled : name ≠ "") : Title name := by
  refine ⟨tidy_of_word word,?_⟩
  cases chars : name.toList with
  | nil => exact absurd (ext chars) filled
  | cons c rest =>
    refine ⟨c,rest,rfl,?_⟩
    rintro rfl
    rw [isWord,chars,all_cons,Bool.and_eq_true] at word
    exact absurd word.1 (by decide)

theorem title_append {front back : String} (title : Title front) (tidy : Text.Tidy back.toList) : Title (front ++ back) := by
  obtain ⟨whole,c,rest,starts,plain⟩ := title
  refine ⟨?_,c,rest ++ back.toList,?_,plain⟩
  · rw [toList_append]
    exact whole.append tidy
  · rw [toList_append,starts,cons_append]

theorem Program.title_of_worded (ends : p.chainEnds t = true) (space : isWord (p.typeAt t).space = true)
    (name : isWord (p.typeAt t).name = true) (filled : (p.typeAt t).name ≠ "")
    (outer : ∀ d, (p.typeAt t).declaring = some d → Title (p.fullName d)) : Title (p.fullName t) := by
  cases declaring : (p.typeAt t).declaring with
  | some d =>
    rw [fullName_of_declaring ends declaring]
    exact title_append (title_append (outer d declaring) (Text.tidy_of_nameChars (by decide))) (tidy_of_word name)
  | none =>
    rw [fullName_of_top declaring]
    split
    · exact title_of_word name filled
    · next spaced =>
      have some_ : (p.typeAt t).space ≠ "" := by simpa using spaced
      exact title_append (title_append (title_of_word space some_) (Text.tidy_of_nameChars (by decide))) (tidy_of_word name)

/-- Modules that others can refer to in writing: their types have titles and members with plain names, and one of them has
    the type that stands for no value. -/
structure Program.Library (p : Program) (references : List ModuleId) : Prop where
  declared : ∀ h ∈ references, h.index < p.modules.size
  void : ∃ h ∈ references, (p.findOwnType? h "System.Void").isSome = true
  titled : ∀ h ∈ references, ∀ t ∈ p.allTypes h, Title (p.fullName t)
  methods : ∀ h ∈ references, ∀ t ∈ p.allTypes h, ∀ m ∈ (p.typeAt t).methods, isWord m.name = true
  fields : ∀ h ∈ references, ∀ t ∈ p.allTypes h, ∀ f ∈ (p.typeAt t).fields, isWord f.name = true

namespace Document

variable {doc : Document} {references : List ModuleId} {types : List PendingType} {version : Option Version} {name : String}

section Sketched

variable (formed : p.WellFormed) (library : p.Library references)
  (sketched : Sketched ⟨p.modules.size⟩ (p.addModule { name, version, references }).2 s types)
include formed library sketched

theorem Sketched.allTypes_reference {h : ModuleId} (member : h ∈ references) : s.allTypes h = p.allTypes h := by
  have kept : Keeps header p s := ((extends_addModule _).trans sketched.grown).headers
  refine allTypes_kept formed.grounded formed.nests formed.listed kept (sketched.moduleAt_eq.2 h ?_)
  rintro rfl
  exact absurd (library.declared _ member) (Nat.lt_irrefl _)

theorem Sketched.foreign (offered : Offered ⟨p.modules.size⟩ s d) (old : d.index < p.types.size) :
    ∃ h ∈ references, d ∈ p.allTypes h := by
  rcases offered with own | ⟨h,member,other⟩
  · exact absurd (sketched.mem_allTypes.mp own).1 (Nat.not_le_of_lt old)
  · obtain ⟨roots,here⟩ := sketched.moduleAt_eq.1
    rw [here] at member
    exact ⟨h,member,by rw [← sketched.allTypes_reference formed library member]; exact other⟩

theorem Sketched.foreignPlain : ForeignPlain p.types.size ⟨p.modules.size⟩ s := by
  intro d old found
  obtain ⟨h,member,other⟩ := sketched.foreign formed library (offered_of_findType? found) old
  have same : s.typeAt d = p.typeAt d := ((extends_addModule _).trans sketched.grown).typeAt_eq old
  rw [same]
  exact ⟨library.methods h member d other,library.fields h member d other⟩

/-- The types of a document with plain names have titles, also those declared in a type that the document refers to. -/
theorem Sketched.title (worded : ∀ t ∈ types, t.doc.Worded) (offered : Offered ⟨p.modules.size⟩ s t) :
    Title (s.fullName t) := by
  have kept : Keeps header p s := ((extends_addModule _).trans sketched.grown).headers
  induction size : (s.fullName t).length using Nat.strongRecOn generalizing t with
  | ind k ih =>
    by_cases old : t.index < p.types.size
    · obtain ⟨h,member,other⟩ := sketched.foreign formed library offered old
      rw [kept.fullName_eq formed.grounded old]
      exact library.titled h member t other
    · have inside := offered.inside sketched.listed
      obtain ⟨pd,among,rfl⟩ := sketched.mem_ids (Nat.le_of_not_lt old) inside
      have ends := sketched.grounded.ends pd.id inside
      obtain ⟨space,name,-,-⟩ := worded pd among
      have blank := sketched.blank pd among
      refine title_of_worded ends (by rw [blank.space]; exact space) (by rw [blank.name]; exact name)
        (by rw [blank.name]; exact blank.named) fun d declaring => ih _ ?_ ?_ rfl
      · have longer := congrArg String.length (fullName_of_declaring ends declaring)
        simp only [String.length_append] at longer
        have slash : "/".length = 1 := rfl
        omega
      · have own := sketched.mem_allTypes.mpr ⟨Nat.le_of_not_lt old,inside⟩
        rcases sublist_allTypes_cases own with top | ⟨u,before,nested⟩
        · exact sketched.outer pd.id top d declaring
        · have outer : u ∈ s.allTypes ⟨p.modules.size⟩ := before.subset (.head _)
          obtain ⟨from_,within⟩ := sketched.mem_allTypes.mp outer
          obtain ⟨pu,listed,rfl⟩ := sketched.mem_ids from_ within
          have declared := ((sketched.blank pu listed).nested pd.id nested).2
          rw [declared] at declaring
          cases declaring
          exact .inl outer

end Sketched

theorem Sketched.traced (sketched : Sketched home p s types) (foreign : ForeignPlain p.types.size home s)
    (worded : ∀ t ∈ types, t.doc.Worded) (populated : Populated s home types r)
    (voiced : Voiced r home (types.map PendingType.methods).flatten q) :
    q.Traced p.types.size (Named p.types.size home s) := by
  have drafted := sketched.drafted populated
  have start : s.Reach home (Named p.types.size home s) := by
    refine foreign.reach (K := fun _ => True) (.refl _ s) rfl (fun _ _ => rfl) fun t new => ?_
    rw [← sketched.header_eq new]
    exact ⟨mentions_absent,forall_mem_nil _,forall_mem_nil _,forall_mem_nil _,forall_mem_nil _⟩
  have types_ (t : TypeId) (new : p.types.size ≤ t.index) : (r.typeAt t).Traced (Named p.types.size home s) := by
    by_cases inside : t.index < s.types.size
    · obtain ⟨pd,among,rfl⟩ := sketched.mem_ids new inside
      exact (populated.told pd among).traced start (worded pd among).fields (worded pd among).methods
    · rw [typeAt_of_le (by rw [populated.agree.size_eq]; exact Nat.le_of_not_lt inside)]
      exact traced_default
  have reach := foreign.reach populated.agree populated.modules_eq drafted.old types_
  refine ⟨fun t new => (types_ t new).of_signature (voiced.agree.view_eq t),fun m b new body => ?_⟩
  by_cases among : m ∈ ((types.map PendingType.methods).flatten).map PendingMethod.id
  · obtain ⟨x,member,rfl⟩ := mem_map.mp among
    exact (voiced.spoken x member).traced reach body
  · rw [voiced.rest m among,drafted.bodiless m new] at body
    cases body

/-- A document with plain names, linked against a library, brings types with titles that mention what the module can name. -/
theorem link_lineage (formed : p.WellFormed) (library : p.Library references) (plain : doc.isPlain = true)
    (linked : doc.link p references = .ok (home,q)) :
    q.Lineage p.types.size (q.Nameable home) home q ∧
      ∀ d, q.Nameable home d → d.index < q.types.size ∧ Title (q.fullName d) := by
  obtain ⟨version,types,s1,s2,methods,s3,rfl,-,-,declared,sketched,members,bodies⟩ := link_phases formed linked
  have worded := declareTypes_worded plain declared
  have foreign := sketched.foreignPlain formed library
  obtain ⟨rfl,populated⟩ := populated_of_run sketched.blank_methods sketched.nodup_ids members
  have voiced := voiced_of_run (populated.waiting sketched) (populated.nodup_methods sketched) bodies
  have traced := sketched.traced foreign worded populated voiced
  have agree := populated.agree.trans voiced.agree.header
  have modules := voiced.modules_eq.trans populated.modules_eq
  have names : q.fullName = s2.fullName := agree.fullName_eq
  have nameable : q.Nameable ⟨p.modules.size⟩ = s2.Nameable ⟨p.modules.size⟩ := by
    funext d
    rw [Nameable,Nameable,agree.findType?_eq modules,names]
  have title (d : TypeId) (offered : Offered ⟨p.modules.size⟩ s2 d) : Title (q.fullName d) := by
    rw [names]
    exact sketched.title formed library worded offered
  rw [nameable]
  refine ⟨⟨.refl _ _,fun t new inside => ?_,fun t new inside => ?_,fun t => ?_,⟨[],.of_eq rfl⟩,traced⟩,
    fun d found => ?_⟩
  · rw [agree.size_eq] at inside
    exact title t (.inl (sketched.mem_allTypes.mpr ⟨new,inside⟩))
  · exact absurd inside (Nat.not_lt_of_le new)
  · rw [agree.allTypes_eq modules,agree.size_eq]
    exact sketched.mem_allTypes
  · have offered : Offered ⟨p.modules.size⟩ s2 d := offered_of_findType? found
    exact ⟨by rw [agree.size_eq]; exact offered.inside sketched.listed,title d offered⟩

end Document
end Loom
