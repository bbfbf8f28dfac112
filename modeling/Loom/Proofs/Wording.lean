import Loom.Proofs.Quotation
import Loom.Proofs.Spelling

/-!
Members and instructions read back. The text of a method, a field, an attribute argument or an instruction is read as one
with the same text wherever the types in it can be read and the member is there.
-/
namespace Loom

open Opcode
open Text (Tidy Loose Balances isNameChar isWordChar isWord isBlank trim Trimmed ne_of_isNameChar trimmed_of_visible)
open Text.Brackets (cut cutFrom split beforeClosing beforeClosingFrom)
open TypeRef (signatureText_congr texts_eq text_congr texts)
open String (ofList_toList toList_append)
open Text.Quoted (decode_encode encode toList_encode)
open AttributeArg (written)

variable {o : MethodOperand} {f : FieldRef} {w : String} {i : Instruction}

namespace Program

variable {p q : Program} {home : ModuleId} {scope : ParamScope} {id : RefId}
variable {e d : TypeId} {r : MethodRef} {s : String} {code : Opcode} {a : List Char}

theorem toList_ne_nil (some : s ≠ "") : s.toList ≠ [] := by
  intro empty
  exact some (String.toList_inj.mp (by rw [empty]; rfl))

theorem isWordChar_of_isWord (word : isWord s = true) {c : Char} (member : c ∈ s.toList) : isWordChar c = true :=
  List.all_eq_true.mp word c member

theorem ne_of_balances {anywhere : Bool} {d e : Nat} (balanced : Balances anywhere d a e) {mark : Char}
    (special : mark ∈ [':','(',')','\x60','"']) : ∀ c ∈ a, c ≠ mark := by
  have among : mark ∈ Text.marks := by
    have subset : ∀ m ∈ [':','(',')','\x60','"'], m ∈ Text.marks := by decide
    exact subset mark special
  have apart : ∀ m ∈ [':','(',')','\x60','"'], '<' ≠ m ∧ '>' ≠ m ∧ ',' ≠ m ∧ ' ' ≠ m := by decide
  obtain ⟨opening,closing,comma,blank⟩ := apart mark special
  induction balanced with
  | nil => nofun
  | opening _ ih => exact List.forall_mem_cons.mpr ⟨opening,ih⟩
  | closing _ ih => exact List.forall_mem_cons.mpr ⟨closing,ih⟩
  | separator which _ _ ih => exact List.forall_mem_cons.mpr ⟨by rcases which with rfl | rfl <;> assumption,ih⟩
  | char name _ ih => exact List.forall_mem_cons.mpr ⟨ne_of_isNameChar name among,ih⟩

theorem cutColons_append (plain : ∀ c ∈ a, c ≠ ':') (rest : List Char) :
    cutColons (a ++ ':' :: ':' :: rest) = some (a,rest) := by
  induction a with
  | nil => rfl
  | cons c more ih =>
    have here : c ≠ ':' := plain c (.head _)
    rw [List.cons_append,cutColons,ih fun c member => plain c (.tail _ member)]
    · rfl
    · intro other same
      exact absurd same here

theorem cut_append (tidy : Tidy a) (rest : List Char) : cut ' ' (a ++ ' ' :: rest) = some (a,rest) := by
  have step := Balances.cutFrom_append tidy (' ' :: rest)
  rw [cut]
  rw [Int.natCast_zero] at step
  rw [step,cutFrom,if_neg (by decide),if_neg (by decide),if_pos (by decide)]
  simp

theorem takeWhile_append_stop {f : Char → Bool} {c : Char} (all : ∀ c ∈ a, f c = true) (stop : f c = false)
    (rest : List Char) : (a ++ c :: rest).takeWhile f = a ∧ (a ++ c :: rest).dropWhile f = c :: rest := by
  rw [List.takeWhile_append_of_pos all,List.dropWhile_append_of_pos all,List.takeWhile_cons_of_neg (by simp [stop]),
    List.dropWhile_cons_of_neg (by simp [stop]),List.append_nil]
  exact ⟨rfl,rfl⟩

theorem readArity_count {n : Nat} (fits : n < 0x8000000000000000) (rest : List Char) :
    readArity s ('\x60' :: '\x60' :: (Nat.toDigits 10 n ++ '(' :: rest)) = .ok ({ arity := n },'(' :: rest) := by
  have digits : ∀ c ∈ '\x60' :: '\x60' :: Nat.toDigits 10 n, decide (c ≠ '(') = true := by
    refine List.forall_mem_cons.mpr ⟨by decide,List.forall_mem_cons.mpr ⟨by decide,fun c member => ?_⟩⟩
    simpa using ne_of_isNameChar (isNameChar_of_digit member) (by decide)
  obtain ⟨taken,dropped⟩ := takeWhile_append_stop digits (c := '(') (by decide) rest
  rw [List.cons_append,List.cons_append] at taken dropped
  obtain ⟨c,more,shape,-,-⟩ := Text.Decimal.exists_digit_cons n
  have tick : c ≠ '\x60' := ne_of_isNameChar (isNameChar_of_digit (n := n) (by rw [shape]; exact .head _)) (by decide)
  rw [readArity]
  simp only [dropped,taken]
  rw [List.dropWhile_cons_of_pos (by decide),List.dropWhile_cons_of_pos (by decide),shape,
    List.dropWhile_cons_of_neg (by simp [tick]),← shape,Text.Decimal.parse_toDigits fits]
  simp

theorem readArity_texts {args : List (List Char)} (each : ∀ a ∈ args, Tidy a ∧ a ≠ []) (rest : List Char) :
    readArity s ('<' :: (List.intercalate [',',' '] args ++ '>' :: '(' :: rest)) =
      .ok ({ arity := args.length, args },'(' :: rest) := by
  have loose : Loose (List.intercalate [',',' '] args) := loose_intercalate fun a member => (each a member).1
  have ends : beforeClosing ('<' :: (List.intercalate [',',' '] args ++ '>' :: '(' :: rest)) =
      some ('<' :: List.intercalate [',',' '] args) := by
    have step := Balances.beforeClosingFrom_append loose ('>' :: '(' :: rest)
    rw [beforeClosing,beforeClosingFrom,if_pos rfl]
    simp only [Int.natCast_zero] at step
    rw [step]
    simp [beforeClosingFrom]
  rw [readArity]
  simp only [ends,List.length_cons,Nat.add_sub_cancel,List.take_left',Text.split_intercalate each]
  simp [List.drop_append]

theorem readMember_append {name : String} {arityText : List Char} (params : List Char) {arity : ArityText} (named : name ≠ "")
    (word : isWord name = true) (starts : ∀ c, (arityText ++ ['(']).head? = some c → endsMethodName c = true)
    (read : readArity s (arityText ++ '(' :: (params ++ [')'])) = .ok (arity,'(' :: (params ++ [')'])))
    (low : 0 ≤ arity.arity) (high : arity.arity < arityLimit) :
    readMember s (name.toList ++ (arityText ++ '(' :: (params ++ [')']))) = .ok ⟨name.toList,arity,params⟩ := by
  have inside : ∀ c ∈ name.toList, (!endsMethodName c) = true := by
    intro c member
    have plain := Text.isNameChar_of_isWordChar (isWordChar_of_isWord word member)
    simp [endsMethodName,ne_of_isNameChar (m := '<') plain (by decide),
      ne_of_isNameChar (m := '\x60') plain (by decide),ne_of_isNameChar (m := '(') plain (by decide)]
  obtain ⟨c,tail,split⟩ : ∃ c tail, arityText ++ '(' :: (params ++ [')']) = c :: tail := by
    cases arityText with
    | nil => exact ⟨_,_,rfl⟩
    | cons c more => exact ⟨_,_,rfl⟩
  have stop : (!endsMethodName c) = false := by
    rw [starts c ?_]
    · rfl
    · cases arityText with
      | nil => cases split; rfl
      | cons d more => cases split; rfl
  obtain ⟨taken,dropped⟩ := takeWhile_append_stop inside stop tail
  have last : (name.toList ++ (arityText ++ '(' :: (params ++ [')']))).getLast? = some ')' := by
    have whole : name.toList ++ (arityText ++ '(' :: (params ++ [')'])) =
      (name.toList ++ (arityText ++ '(' :: params)) ++ [')'] := by
      simp
    rw [whole,List.getLast?_concat]
  rw [readMember]
  simp only [last]
  rw [split] at read ⊢
  rw [taken,dropped,if_neg (by simp [toList_ne_nil named]),read]
  simp only [List.head?_cons,List.drop_succ_cons,List.drop_zero,List.dropLast_concat]
  rw [if_neg (by simp),if_neg (by simp only [Bool.or_eq_true,decide_eq_true_eq]; omega)]

/-- A method reference of one program that can be read in another: the types in it can, and the method is there. -/
structure MethodReadable (p q : Program) (home : ModuleId) (scope : ParamScope) (r : MethodRef) (d e : TypeId) : Prop where
  element : r.declaring.element? = some d
  declaring : Readable p q home scope r.declaring
  found : q.findType? home (p.fullName d) = some e
  returns : (r.returns = .absent ∧ (q.findType? home "System.Void").isSome = true) ∨
    ∀ id, Readable p q home (q.signatureScope e r.generics.length id) r.returns
  params : ∀ t ∈ r.params, ∀ id, Readable p q home (q.signatureScope e r.generics.length id) t
  method : ∃ m ∈ q.methodsOf e, (q.methodAt m).name = r.name ∧ (q.methodAt m).generics.length = r.generics.length ∧
    (q.methodAt m).paramTypes.map (·.spelling q) = r.params.map (·.spelling p)
  named : r.name ≠ ""
  word : isWord r.name = true
  count : (r.generics.length : Int) < arityLimit

theorem Readable.signatureText_eq {t : TypeRef} (readable : Readable p q home scope t) : t.signatureText p = t.text p := by
  cases t with
  | absent => exact (readable _ (TypeRef.mem_parts_self _)).elim
  | _ => rfl

theorem title_void : Title "System.Void" :=
  ⟨Text.tidy_of_nameChars (by decide),'S',"ystem.Void".toList,rfl,by decide⟩

theorem MethodReadable.returns_text (readable : MethodReadable p q home scope r d e) (id : RefId) :
    (Tidy (r.returns.signatureText p).toList ∧ (r.returns.signatureText p).toList ≠ []) ∧
      ∃ u, q.readType home (q.signatureScope e r.generics.length id) (r.returns.signatureText p).toList = .ok u ∧
        u.signatureText q = r.returns.signatureText p := by
  rcases readable.returns with ⟨absent,found⟩ | returns
  · obtain ⟨v,found⟩ := Option.isSome_iff_exists.mp found
    have name := fullName_of_findType? found
    have void : Readable q q home (q.signatureScope e r.generics.length id) (.decl v) := by
      intro u within
      rw [TypeRef.mem_parts_decl.mp within]
      exact ⟨name ▸ title_void,by rw [name,found]; rfl⟩
    obtain ⟨u,read,spelled⟩ := void.readType_text
    rw [absent]
    rw [TypeRef.text,name] at read
    refine ⟨⟨title_void.tidy,toList_ne_nil (s := "System.Void") (by decide)⟩,u,read,?_⟩
    rw [signatureText_congr spelled]
    exact name
  · have returns := returns id
    obtain ⟨u,read,spelled⟩ := returns.readType_text
    rw [returns.signatureText_eq]
    refine ⟨returns.tidy,u,read,?_⟩
    rw [signatureText_congr spelled,returns.signatureText_eq]

theorem MethodReadable.params_text (readable : MethodReadable p q home scope r d e) (id : RefId) :
    (∀ text ∈ r.params.map fun t => (t.text p).toList, Tidy text ∧ text ≠ []) ∧ ∃ us,
      List.Forall₂ (fun text t => q.readType home (q.signatureScope e r.generics.length id) text = .ok t)
        (r.params.map fun t => (t.text p).toList) us ∧ us.map (·.spelling q) = r.params.map (·.spelling p) := by
  constructor
  · intro text member
    obtain ⟨t,among,rfl⟩ := List.mem_map.mp member
    exact (readable.params t among id).tidy
  · obtain ⟨us,each⟩ := exists_forall₂ fun t member => (readable.params t member id).readType_text
    exact ⟨us,List.forall₂_map_left_iff.mpr (each.imp fun _ _ both => both.1),
      map_eq_of_forall₂ (each.imp fun _ _ both => both.2)⟩

theorem findMethod?_of_mem {m : MethodId} (member : m ∈ q.methodsOf e) (name : (q.methodAt m).name = r.name)
    (generics : (q.methodAt m).generics.length = r.generics.length)
    (params : (q.methodAt m).paramTypes.map (·.spelling q) = r.params.map (·.spelling q)) :
    ∃ found, q.findMethod? e r = some found := by
  rw [← Option.isSome_iff_exists,findMethod?,List.find?_isSome]
  exact ⟨m,member,by simp [name,generics,sameSignatureList_iff_spellings.mpr params]⟩

theorem MethodReadable.readMethodRef_text (readable : MethodReadable p q home scope r d e) {s : String}
    {declaring : TypeRef} (element : declaring.element? = some e) (arity : ArityText)
    (count : arity.arity = r.generics.length) (id : RefId) :
    ∃ r', q.readMethodRef home s declaring (r.returns.signatureText p).toList
        ⟨r.name.toList,arity,List.intercalate [',',' '] (r.params.map fun t => (t.text p).toList)⟩ id = .ok r' ∧
      r'.name = r.name ∧ r'.declaring = declaring ∧ r'.returns.signatureText q = r.returns.signatureText p ∧
      r'.params.map (·.spelling q) = r.params.map (·.spelling p) ∧ r'.generics.length = r.generics.length := by
  obtain ⟨-,returns,returnsRead,returnsText⟩ := readable.returns_text id
  obtain ⟨tidy,params,paramsRead,spelled⟩ := readable.params_text id
  obtain ⟨m,among,name,generics,signature⟩ := readable.method
  have toNat : arity.arity.toNat = r.generics.length := by rw [count,Int.toNat_natCast]
  let member : MemberText := ⟨r.name.toList,arity,List.intercalate [',',' '] (r.params.map fun t => (t.text p).toList)⟩
  obtain ⟨found,lookup⟩ := findMethod?_of_mem (r := sought member declaring returns params id) among
    (by simp [sought,member,name]) (by simp [sought,member,toNat,generics]) (by rw [signature,← spelled]; rfl)
  refine ⟨_,readMethodRef_eq_ok.mpr ⟨e,returns,_,params,found,element,?_,Text.split_intercalate tidy,?_,lookup,rfl⟩,
    by simp [sought],rfl,returnsText,spelled,by simp [sought,toNat]⟩
  · rwa [toNat]
  · rwa [toNat]

theorem element_of_read {t u : TypeRef} {text : List Char} (element : t.element? = some d)
    (found : q.findType? home (p.fullName d) = some e) (read : q.readType home scope text = .ok u)
    (spelled : u.spelling q = t.spelling p) : u.element? = some e := by
  obtain ⟨f,element,name⟩ := TypeRef.element?_congr spelled.symm element
  have again := (readType_found read).element element
  rw [name,found] at again
  rw [element,again]

/-- The parts of a method text, up to the type arguments that may be written in it. -/
theorem MethodReadable.readMethod_parts (readable : MethodReadable p q home scope r d e) {s : String}
    (arityText : List Char) (arity : ArityText)
    (parts : s.toList = (r.returns.signatureText p).toList ++ ' ' :: ((r.declaring.signatureText p).toList ++ ':' :: ':' ::
      (r.name.toList ++ (arityText ++ '(' ::
        (List.intercalate [',',' '] (r.params.map fun t => (t.text p).toList) ++ [')'])))))
    (starts : ∀ c, (arityText ++ ['(']).head? = some c → endsMethodName c = true)
    (whole : trim s.toList = s.toList) (read : ∀ rest, readArity s (arityText ++ '(' :: rest) = .ok (arity,'(' :: rest))
    (count : arity.arity = r.generics.length) (id : RefId) :
    ∃ r', (r'.name = r.name ∧ r'.declaring.signatureText q = r.declaring.signatureText p ∧
        r'.returns.signatureText q = r.returns.signatureText p ∧
        r'.params.map (·.spelling q) = r.params.map (·.spelling p) ∧ r'.generics.length = r.generics.length) ∧
      ∀ o, (if arity.args.isEmpty then .plain r' = o else
        ∃ us, arity.args.Forall₂ (fun text t => q.readType home scope text = .ok t) us ∧ .applied r' us = o) →
        q.readMethod home scope s id = .ok o := by
  obtain ⟨⟨returnsTidy,-⟩,-⟩ := readable.returns_text id
  obtain ⟨declaring,declaringRead,spelled⟩ := readable.declaring.readType_text
  have element := element_of_read readable.element readable.found declaringRead spelled
  obtain ⟨r',refRead,name,same,returns,params,generics⟩ :=
    readable.readMethodRef_text (s := s) element arity count id
  have text : r.declaring.signatureText p = r.declaring.text p := readable.declaring.signatureText_eq
  refine ⟨r',⟨name,by rw [same,signatureText_congr spelled],returns,params,generics⟩,?_⟩
  have member := readMember_append (s := s) (List.intercalate [',',' '] (r.params.map fun t => (t.text p).toList))
    readable.named readable.word starts (read _) (by omega) (by rw [count]; exact readable.count)
  have colons := cutColons_append (ne_of_balances readable.declaring.tidy.1 (by decide))
  refine fun o last => readMethod_eq_ok.mpr ⟨_,_,?_,_,_,colons _,declaring,declaringRead,_,member,r',refRead,last⟩
  rw [whole,parts,cut_append returnsTidy,text]

theorem methodRef_text_congr {r' : MethodRef} (name : r'.name = r.name)
    (declaring : r'.declaring.signatureText q = r.declaring.signatureText p)
    (returns : r'.returns.signatureText q = r.returns.signatureText p)
    (params : r'.params.map (·.spelling q) = r.params.map (·.spelling p))
    (generics : r'.generics.length = r.generics.length) :
    r'.text q = r.text p ∧ texts q r'.params = texts p r.params := by
  have texts : texts q r'.params = texts p r.params := by
    have spelled := congrArg (List.map Spelling.text) params
    simpa only [texts_eq,List.map_map,Function.comp_def,← TypeRef.text_eq_spelling] using spelled
  have empty : r'.generics.isEmpty = r.generics.isEmpty := by
    rw [Bool.eq_iff_iff,List.isEmpty_iff_length_eq_zero,List.isEmpty_iff_length_eq_zero,generics]
  exact ⟨by rw [MethodRef.text,MethodRef.text,name,declaring,returns,texts,generics,empty],texts⟩

def MethodOperandReadable (p q : Program) (home : ModuleId) (scope : ParamScope) : MethodOperand → Prop
  | .plain r => ∃ d e, MethodReadable p q home scope r d e
  | .applied r args => (∃ d e, MethodReadable p q home scope r d e) ∧ args ≠ [] ∧ r.generics.length = args.length ∧
      ∀ t ∈ args, Readable p q home scope t

theorem MethodReadable.trimmed (readable : MethodReadable p q home scope r d e) (middle : String) :
    Trimmed (r.returns.signatureText p ++ (middle ++ ")")).toList ∧
      (r.returns.signatureText p ++ (middle ++ ")")).toList ≠ [] := by
  obtain ⟨⟨tidy,some⟩,-⟩ := readable.returns_text default
  rw [toList_append,toList_append]
  exact ⟨tidy.trimmed.append (trimmed_of_visible (by decide)) _ some (by decide),by simp⟩

theorem MethodOperandReadable.trimmed (readable : MethodOperandReadable p q home scope o) :
    Trimmed (o.text p).toList ∧ (o.text p).toList ≠ [] := by
  cases o with
  | plain r =>
    obtain ⟨d,e,readable⟩ := readable
    rw [MethodOperand.text,MethodRef.text]
    simpa only [String.append_assoc] using readable.trimmed (" " ++ r.declaring.signatureText p ++ "::" ++ r.name ++
      (if r.generics.isEmpty then "" else "\x60\x60" ++ toString r.generics.length) ++ "(" ++
      ", ".intercalate (texts p r.params))
  | applied r args =>
    obtain ⟨⟨d,e,readable⟩,-⟩ := readable
    rw [MethodOperand.text]
    simpa only [String.append_assoc] using readable.trimmed (" " ++ r.declaring.signatureText p ++ "::" ++ r.name ++
      "<" ++ ", ".intercalate (texts p args) ++ ">" ++ "(" ++ ", ".intercalate (texts p r.params))

theorem MethodOperandReadable.readMethod_text (readable : MethodOperandReadable p q home scope o) (id : RefId) :
    ∃ o', q.readMethod home scope (o.text p) id = .ok o' ∧ o'.text q = o.text p := by
  have whole := readable.trimmed.1.trim_eq
  cases o with
  | plain r =>
    obtain ⟨d,e,readable⟩ := readable
    cases none : r.generics.isEmpty with
    | true =>
      obtain ⟨r',⟨name,declaring,returns,params,generics⟩,read⟩ := readable.readMethod_parts (s := r.text p) [] {} (by
          rw [MethodRef.text,none]
          simp [texts_eq,Function.comp_def])
        (by rintro c ⟨⟩; decide) whole (fun rest => rfl) (by simp [List.isEmpty_iff.mp none]) id
      exact ⟨.plain r',read _ rfl,(methodRef_text_congr name declaring returns params generics).1⟩
    | false =>
      have fits : r.generics.length < 0x8000000000000000 := by
        have count := readable.count
        rw [arityLimit] at count
        omega
      obtain ⟨r',⟨name,declaring,returns,params,generics⟩,read⟩ := readable.readMethod_parts (s := r.text p)
        ('\x60' :: '\x60' :: Nat.toDigits 10 r.generics.length) { arity := r.generics.length }
        (by
          rw [MethodRef.text,none]
          simp [texts_eq,Function.comp_def])
        (by rintro c ⟨⟩; decide) whole (fun rest => readArity_count fits rest) rfl id
      exact ⟨.plain r',read _ rfl,(methodRef_text_congr name declaring returns params generics).1⟩
  | applied r args =>
    obtain ⟨⟨d,e,readable⟩,some,count,each⟩ := readable
    obtain ⟨us,argsRead⟩ := exists_forall₂ fun t member => (each t member).readType_text
    have tidy : ∀ text ∈ args.map fun t => (t.text p).toList, Tidy text ∧ text ≠ [] := fun text member => by
      obtain ⟨t,among,rfl⟩ := List.mem_map.mp member
      exact (each t among).tidy
    have argTexts : texts q us = texts p args := by
      have spelled := congrArg (List.map Spelling.text) (map_eq_of_forall₂ (argsRead.imp fun _ _ both => both.2))
      simpa only [texts_eq,List.map_map,Function.comp_def,← TypeRef.text_eq_spelling] using spelled
    obtain ⟨r',⟨name,declaring,returns,params,generics⟩,read⟩ :=
      readable.readMethod_parts (s := (MethodOperand.applied r args).text p)
        ('<' :: (List.intercalate [',',' '] (args.map fun t => (t.text p).toList) ++ ['>']))
        { arity := (args.map fun t => (t.text p).toList).length, args := args.map fun t => (t.text p).toList }
        (by
          rw [MethodOperand.text]
          simp [texts_eq,Function.comp_def])
        (by rintro c ⟨⟩; decide) whole
        (fun rest => by
          have read := readArity_texts (s := (MethodOperand.applied r args).text p) tidy rest
          simpa using read)
        (by rw [List.length_map,count]) id
    refine ⟨.applied r' us,?_,?_⟩
    · exact read _ ((if_neg (by simpa using some)).mpr
        ⟨us,List.forall₂_map_left_iff.mpr (argsRead.imp fun _ _ both => both.1),rfl⟩)
    · rw [MethodOperand.text,MethodOperand.text,name,declaring,returns,argTexts,
        (methodRef_text_congr name declaring returns params generics).2]

/-- A field reference of one program that can be read in another: the types in it can, and the field is there. -/
structure FieldReadable (p q : Program) (home : ModuleId) (scope : ParamScope) (f : FieldRef) (d e : TypeId) : Prop where
  element : f.declaring.element? = some d
  declaring : Readable p q home scope f.declaring
  found : q.findType? home (p.fullName d) = some e
  fieldType : Readable p q home ⟨q.typeParams e,[]⟩ f.fieldType
  field : ((q.typeAt e).field? f.name).isSome = true
  named : f.name ≠ ""
  word : isWord f.name = true

section

variable (readable : FieldReadable p q home scope f d e)
include readable

theorem FieldReadable.toList_text : (f.text p).toList =
      (f.fieldType.text p).toList ++ ' ' :: ((f.declaring.text p).toList ++ ':' :: ':' :: f.name.toList) := by
  rw [FieldRef.text,readable.fieldType.signatureText_eq,readable.declaring.signatureText_eq]
  simp

theorem FieldReadable.trimmed :
    Trimmed (f.text p).toList ∧ (f.text p).toList ≠ [] := by
  obtain ⟨tidy,some⟩ := readable.fieldType.tidy
  have name : Trimmed f.name.toList := trimmed_of_visible fun c member =>
    Text.isBlank_of_isNameChar (Text.isNameChar_of_isWordChar (isWordChar_of_isWord readable.word member))
  have trimmed := tidy.trimmed.append name (' ' :: ((f.declaring.text p).toList ++ [':',':'])) some
    (toList_ne_nil readable.named)
  rw [readable.toList_text]
  exact ⟨by simpa using trimmed,by simp⟩

theorem FieldReadable.readField_text :
    ∃ f', q.readField home scope (f.text p) = .ok f' ∧ f'.text q = f.text p := by
  have typeTidy := readable.fieldType.tidy.1
  obtain ⟨declaring,declaringRead,spelled⟩ := readable.declaring.readType_text
  obtain ⟨fieldType,typeRead,typeSpelled⟩ := readable.fieldType.readType_text
  have element := element_of_read readable.element readable.found declaringRead spelled
  refine ⟨_,readField_eq_ok.mpr ⟨_,_,?_,_,_,cutColons_append (ne_of_balances readable.declaring.tidy.1 (by decide)) f.name.toList,
    by simp [toList_ne_nil readable.named],declaring,declaringRead,e,element,by simpa using readable.field,fieldType,typeRead,
    rfl⟩,?_⟩
  · rw [readable.trimmed.1.trim_eq,readable.toList_text,cut_append typeTidy]
  · rw [FieldRef.text,FieldRef.text,ofList_toList,signatureText_congr typeSpelled,signatureText_congr spelled]

end

/-- An attribute argument of one program that can be read in another. -/
def ArgReadable (p q : Program) (home : ModuleId) : AttributeArg → Prop
  | .type t => Readable p q home {} t
  | .int n => -0x8000000000000000 ≤ n ∧ n < 0x8000000000000000
  | _ => True

theorem exists_toList_toString (n : Int) : ∃ c rest, (toString n).toList = c :: rest ∧
    (∀ d ∈ c :: rest, d = '-' ∨ isNameChar d = true) ∧ c ≠ '"' ∧ c ≠ 't' ∧ c ≠ 'f' := by
  have digits : ∀ n : Nat, ∃ c rest, Nat.toDigits 10 n = c :: rest ∧ c.isDigit = true := by
    intro n
    obtain ⟨c,rest,shape,-⟩ := Text.Decimal.exists_digit_cons n
    have member : c ∈ Nat.toDigits 10 n := by rw [shape]; exact .head _
    exact ⟨c,rest,shape,Nat.isDigit_of_mem_toDigits (by decide) (by decide) member⟩
  cases n with
  | ofNat n =>
    obtain ⟨c,rest,shape,digit⟩ := digits n
    refine ⟨c,rest,?_,fun d member => .inr (isNameChar_of_digit (n := n) (by rw [shape]; exact member)),?_⟩
    · show (toString n).toList = _
      rw [Text.Decimal.toList_toString_nat,shape]
    · refine ⟨?_,?_,?_⟩ <;> (rintro rfl; cases digit)
  | negSucc n =>
    refine ⟨'-',Nat.toDigits 10 (n + 1),?_,?_,by decide,by decide,by decide⟩
    · show ("-" ++ toString (n + 1)).toList = _
      rw [toList_append,Text.Decimal.toList_toString_nat]
      rfl
    · exact List.forall_mem_cons.mpr ⟨.inl rfl,fun d member => .inr (isNameChar_of_digit member)⟩

theorem trimmed_toString (n : Int) : Trimmed (toString n).toList := by
  obtain ⟨c,rest,shape,each,-⟩ := exists_toList_toString n
  refine trimmed_of_visible fun d member => ?_
  rcases each d (shape ▸ member) with rfl | name
  · decide
  · exact Text.isBlank_of_isNameChar name

theorem trimmed_encode (t : Text.Octets) : Trimmed (encode t).toList := by
  rw [toList_encode]
  refine ⟨?_,fun c last => ?_⟩
  · rintro c ⟨⟩
    decide
  · rw [List.getLast?_concat] at last
    cases last
    decide

theorem readLiteral_toString {n : Int} (low : -0x8000000000000000 ≤ n) (high : n < 0x8000000000000000) :
    readLiteral (toString n).toList = .ok (.int n) := by
  obtain ⟨c,rest,shape,-,quote,truth,falsity⟩ := exists_toList_toString n
  have parsed := Text.Decimal.parse_toString low high
  have apart : ∀ s : String, s.toList.head? ≠ some c → String.ofList (c :: rest) ≠ s := by
    intro s other same
    rw [← same,String.toList_ofList] at other
    exact other rfl
  rw [shape] at parsed ⊢
  rw [readLiteral]
  · simp only [parsed]
    rw [if_neg (apart "true" (by simpa using Ne.symm truth)),if_neg (apart "false" (by simpa using Ne.symm falsity))]
  · intro other same
    cases same
    exact quote rfl

/-- The text of an attribute argument is read as an argument with the same text. -/
theorem ArgReadable.readAttributeArg_written {a : AttributeArg} (readable : ArgReadable p q home a) :
    ∃ a', q.readAttributeArg home (a.written p) = .ok a' ∧ a'.written q = a.written p := by
  cases a with
  | type t =>
    obtain ⟨u,read,spelled⟩ := Readable.readType_text readable
    have text : ((AttributeArg.type t).written p).toList = "typeof(".toList ++ ((t.text p).toList ++ [')']) := by
      simp [written]
    refine ⟨.type u,?_,by rw [written,written,text_congr spelled]⟩
    have whole := (Trimmed.append (a := "typeof(".toList) (b := [')']) (trimmed_of_visible (by decide))
      (trimmed_of_visible (by decide)) (t.text p).toList (by decide) (by decide)).trim_eq
    rw [readAttributeArg,text,whole]
    have start : "typeof(".toList.isPrefixOf? ("typeof(".toList ++ ((t.text p).toList ++ [')'])) =
        some ((t.text p).toList ++ [')']) := rfl
    simp only [start,List.getLast?_concat,if_true,List.dropLast_concat,read]
    rfl
  | text t =>
    have start : "typeof(".toList.isPrefixOf? (encode t).toList = none := by
      rw [toList_encode]
      rfl
    refine ⟨.text t,?_,rfl⟩
    rw [readAttributeArg,written,(trimmed_encode t).trim_eq]
    simp only [start]
    have decoded := decode_encode t
    rw [toList_encode,List.cons_append] at decoded ⊢
    rw [readLiteral,decoded]
  | bool b =>
    refine ⟨.bool b,?_,rfl⟩
    have literal : readLiteral (if b then "true" else "false").toList = .ok (.bool b) := by
      cases b <;> simp [readLiteral]
    have trimmed : trim (if b then "true" else "false").toList = (if b then "true" else "false").toList := by
      cases b <;> decide
    have start : "typeof(".toList.isPrefixOf? (if b then "true" else "false").toList = none := by
      cases b <;> rfl
    rw [readAttributeArg,written,trimmed]
    simp only [start]
    exact literal
  | int n =>
    obtain ⟨c,rest,shape,-,-,other,-⟩ := exists_toList_toString n
    have start : "typeof(".toList.isPrefixOf? (toString n).toList = none := by
      have first : ('t' == c) = false := by simpa using Ne.symm other
      rw [shape]
      show (if 't' == c then _ else none) = none
      rw [first]
      rfl
    refine ⟨.int n,?_,rfl⟩
    rw [readAttributeArg,written,(trimmed_toString n).trim_eq]
    simp only [start]
    exact readLiteral_toString readable.1 readable.2

/-- An operand of one program that can be read in another. Branches are read by their labels. -/
def OperandReadable (p q : Program) (home : ModuleId) (scope : ParamScope) : Operand → Prop
  | .int n => -0x8000000000000000 ≤ n ∧ n < 0x8000000000000000
  | .type t => Readable p q home scope t
  | .method o => MethodOperandReadable p q home scope o
  | .field f => ∃ d e, FieldReadable p q home scope f d e
  | _ => True

theorem opcode_name (known : code ∈ all) : ofName? code.name = some code ∧
    (∃ c rest, code.name.toList = c :: rest ∧ c ≠ '.') ∧ ∀ c ∈ code.name.toList, isBlank c = false := by
  have each : ∀ code ∈ all, ofName? code.name = some code ∧
      code.name.toList.head?.all (· ≠ '.') = true ∧ code.name.toList ≠ [] ∧ ∀ c ∈ code.name.toList, isBlank c = false := by
    decide
  obtain ⟨found,dotless,some,visible⟩ := each code known
  obtain ⟨c,rest,shape⟩ := List.exists_cons_of_ne_nil some
  refine ⟨found,⟨c,rest,shape,?_⟩,visible⟩
  rw [shape] at dotless
  simpa using dotless

theorem OperandReadable.operandText_eq {o : Operand} (readable : OperandReadable p q home scope o) :
    p.operandText o = "" ∨ ∃ w, p.operandText o = " " ++ w ∧ Trimmed w.toList ∧ w.toList ≠ [] := by
  cases o with
  | none => exact .inl rfl
  | branch i => exact .inl rfl
  | int n =>
    obtain ⟨c,rest,shape,-⟩ := exists_toList_toString n
    exact .inr ⟨toString n,rfl,trimmed_toString n,by rw [shape]; simp⟩
  | text t => exact .inr ⟨encode t,rfl,trimmed_encode t,by rw [toList_encode]; simp⟩
  | type t =>
    obtain ⟨tidy,some⟩ := Readable.tidy readable
    exact .inr ⟨t.text p,rfl,tidy.trimmed,some⟩
  | method o =>
    obtain ⟨trimmed,some⟩ := MethodOperandReadable.trimmed readable
    exact .inr ⟨o.text p,rfl,trimmed,some⟩
  | field f =>
    obtain ⟨d,e,readable⟩ := readable
    exact .inr ⟨f.text p,rfl,readable.trimmed.1,readable.trimmed.2⟩

theorem trimmed_line (known : code ∈ all) (trimmed : Trimmed w.toList) (some : w.toList ≠ []) :
    Trimmed (code.name ++ (" " ++ w)).toList := by
  obtain ⟨-,⟨c,rest,shape,-⟩,visible⟩ := opcode_name known
  rw [toList_append,toList_append]
  exact (trimmed_of_visible visible).append trimmed _ (by rw [shape]; simp) some

theorem OperandReadable.trimmed (known : i.opcode ∈ all) (readable : OperandReadable p q home scope i.operand) :
    Trimmed (i.opcode.name ++ p.operandText i.operand).toList := by
  rcases readable.operandText_eq with none | ⟨w,text,trimmed,some⟩
  · obtain ⟨-,-,visible⟩ := opcode_name known
    rw [none,String.append_empty]
    exact trimmed_of_visible visible
  · rw [text]
    exact trimmed_line known trimmed some

theorem opcode_spaceless (known : code ∈ all) : ∀ c ∈ code.name.toList, decide (c ≠ ' ') = true := by
  intro c member
  have plain := (opcode_name known).2.2 c member
  simp only [ne_eq,decide_eq_true_eq]
  rintro rfl
  cases plain

theorem line_parts (known : code ∈ all) : (code.name ++ (" " ++ w)).toList.takeWhile (· ≠ ' ') = code.name.toList ∧
      ((code.name ++ (" " ++ w)).toList.dropWhile (· ≠ ' ')).drop 1 = w.toList := by
  obtain ⟨taken,dropped⟩ := takeWhile_append_stop (opcode_spaceless known) (c := ' ') (by decide) w.toList
  have shape : (code.name ++ (" " ++ w)).toList = code.name.toList ++ ' ' :: w.toList := by simp
  rw [shape,taken,dropped]
  exact ⟨rfl,rfl⟩

theorem bare_line_parts (known : code ∈ all) :
    Trimmed code.name.toList ∧ code.name.toList.takeWhile (· ≠ ' ') = code.name.toList ∧
      (code.name.toList.dropWhile (· ≠ ' ')).drop 1 = [] := by
  refine ⟨trimmed_of_visible (opcode_name known).2.2,List.takeWhile_eq_self_iff.mpr (opcode_spaceless known),?_⟩
  rw [List.dropWhile_eq_nil_iff.mpr (opcode_spaceless known)]
  rfl

theorem readInstruction_line (known : code ∈ all) (trimmed : Trimmed w.toList) (filled : w.toList ≠ [])
    {o : Operand} {label : Option String} (read : OperandRead q home scope w.toList id code.operandKind o label) :
    q.readInstruction home scope (code.name ++ (" " ++ w)).toList id = .ok (⟨code,o⟩,label) := by
  obtain ⟨taken,dropped⟩ := line_parts known (w := w)
  rw [readInstruction_eq_ok,(trimmed_line known trimmed filled).trim_eq,taken,dropped,trimmed.trim_eq,ofList_toList]
  exact ⟨(opcode_name known).1,read⟩

theorem OperandReadable.readInstruction_text (known : i.opcode ∈ all)
    (kind : i.operand.kind = i.opcode.operandKind) (straight : i.operand.kind ≠ .branch)
    (readable : OperandReadable p q home scope i.operand) (id : RefId) :
    ∃ o, q.readInstruction home scope (i.opcode.name ++ p.operandText i.operand).toList id = .ok (⟨i.opcode,o⟩,none) ∧
      o.kind = i.operand.kind ∧ q.operandText o = p.operandText i.operand := by
  rcases i with ⟨code,operand⟩
  simp only at known kind
  cases operand with
  | branch target => exact absurd rfl straight
  | none =>
    obtain ⟨trimmed,taken,dropped⟩ := bare_line_parts known
    refine ⟨.none,?_,rfl,rfl⟩
    rw [operandText,String.append_empty,readInstruction_eq_ok,trimmed.trim_eq,taken,dropped,ofList_toList]
    exact ⟨(opcode_name known).1,kind ▸ .none rfl⟩
  | int n =>
    obtain ⟨c,rest,shape,-⟩ := exists_toList_toString n
    have parsed := Text.Decimal.parse_toString readable.1 readable.2
    exact ⟨.int n,readInstruction_line known (trimmed_toString n) (by rw [shape]; simp) (kind ▸ .int parsed),rfl,rfl⟩
  | text t =>
    have filled : (encode t).toList ≠ [] := by rw [toList_encode]; simp
    exact ⟨.text t,readInstruction_line known (trimmed_encode t) filled (kind ▸ .text (decode_encode t)),rfl,rfl⟩
  | type t =>
    obtain ⟨tidy,some⟩ := Readable.tidy readable
    obtain ⟨u,read,spelled⟩ := Readable.readType_text readable
    exact ⟨.type u,readInstruction_line known tidy.trimmed some (kind ▸ .type read),rfl,
      by rw [operandText,operandText,text_congr spelled]⟩
  | method o =>
    obtain ⟨trimmed,some⟩ := MethodOperandReadable.trimmed readable
    obtain ⟨o',read,text⟩ := MethodOperandReadable.readMethod_text readable id
    rw [← ofList_toList (s := o.text p)] at read
    exact ⟨.method o',readInstruction_line known trimmed some (kind ▸ .method read),rfl,by rw [operandText,operandText,text]⟩
  | field f =>
    obtain ⟨d,e,readable⟩ := readable
    obtain ⟨f',read,text⟩ := readable.readField_text
    rw [← ofList_toList (s := f.text p)] at read
    exact ⟨.field f',readInstruction_line known readable.trimmed.1 readable.trimmed.2 (kind ▸ .field read),rfl,
      by rw [operandText,operandText,text]⟩

theorem readInstruction_branch (known : code ∈ all) (kind : code.operandKind = .branch) {label : String}
    (trimmed : Trimmed label.toList) (filled : label.toList ≠ []) :
    q.readInstruction home scope (code.name ++ (" " ++ label)).toList id = .ok ({ opcode := code },some label) := by
  have read : OperandRead q home scope label.toList id .branch _ _ := .branch filled
  rw [ofList_toList] at read
  exact readInstruction_line known trimmed filled (kind ▸ read)

end Program
end Loom
