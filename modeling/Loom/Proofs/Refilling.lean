import Loom.Proofs.Linking
import Loom.Proofs.Restoring

/-!
The bodies of a written module, read back. Instructions get new places in the order of the body; a label is made from the
place of an instruction, so each branch leads again to the instruction that has the place of its old target.
-/
namespace Loom

open Document.Transcript List Program
open TypeRef (spelling texts_eq mem_parts_self texts)
open Text.Decimal (padded)

variable {v : TypeRef} {d : TypeId} {r : MethodRef} {α : Type} {start : Nat} {i : InstructionId}

namespace Document

variable {p s q : Program} {home target : ModuleId} {t : TypeId} {m : MethodId}

theorem spelling_of_declares (names : ∀ t : TypeId, t.index < p.types.size → s.fullName t = p.fullName t)
    (declared : p.Declares v) : v.spelling s = v.spelling p := by
  induction v with
  | absent => rfl
  | decl d => rw [spelling,spelling,names d (declared _ (mem_parts_self _) d rfl)]
  | param g => rfl
  | applied d args ih =>
    have each : args.map (spelling s) = args.map (spelling p) := by
      refine map_congr_left fun a member => ih a member (declared.part ?_)
      exact TypeRef.mem_parts_applied.mpr (.inr ⟨a,member,mem_parts_self a⟩)
    rw [spelling,spelling,TypeRef.spellings_eq,TypeRef.spellings_eq,each,names d (declared _ (mem_parts_self _) d rfl)]

section

variable (legible : Legible p home) (revived : Revived p home target s)
include legible revived

theorem exists_method_place (inside : d.index < p.types.size) (member : m ∈ p.methodsOf d) :
    ∃ n ∈ s.methodsOf (p.place home d), (s.methodAt n).name = (p.methodAt m).name ∧
      (s.methodAt n).generics.length = (p.methodAt m).generics.length ∧
      (s.methodAt n).paramTypes.map (·.spelling s) = (p.methodAt m).paramTypes.map (·.spelling p) := by
  obtain ⟨rfl,within⟩ := mem_methodsOf.mp member
  rw [place]
  split
  · next own =>
    have each := (revived.restored m.owner own).methods
    have length := each.length_eq
    refine ⟨⟨p.copy home m.owner,m.position⟩,mem_methodsOf.mpr ⟨rfl,by rw [← length]; exact within⟩,?_⟩
    have alike := List.Forall₂.get each within (by rw [← length]; exact within)
    have original : p.methodAt m = (p.typeAt m.owner).methods.get ⟨m.position,within⟩ :=
      methodAt_eq_of_getElem? (List.getElem?_eq_getElem within)
    have copy : s.methodAt ⟨p.copy home m.owner,m.position⟩ =
        (s.typeAt (p.copy home m.owner)).methods.get ⟨m.position,by rw [← length]; exact within⟩ :=
      methodAt_eq_of_getElem? (List.getElem?_eq_getElem _)
    rw [original,copy]
    exact ⟨alike.name,congrArg List.length alike.generics,alike.paramTypes⟩
  · have same : s.typeAt m.owner = p.typeAt m.owner := revived.mirrors.old m.owner inside
    have method : s.methodAt m = p.methodAt m := methodAt_congr (by rw [same])
    refine ⟨m,mem_methodsOf.mpr ⟨rfl,by rw [same]; exact within⟩,?_⟩
    rw [method]
    refine ⟨rfl,rfl,List.map_congr_left fun v among => spelling_of_declares revived.mirrors.oldNames ?_⟩
    exact (legible.orderly.formed.types m.owner inside).members.declares_params rfl among

omit legible in
theorem field_place (inside : d.index < p.types.size) {name : String}
    (found : ((p.typeAt d).field? name).isSome = true) : ((s.typeAt (p.place home d)).field? name).isSome = true := by
  rw [place]
  split
  · next own =>
    have names := congrArg (map Prod.fst) (revived.restored d own).fields
    rw [map_map,map_map] at names
    rw [TypeDecl.field?,find?_isSome] at found ⊢
    obtain ⟨f,among,same⟩ := found
    have member : f.name ∈ (s.typeAt (p.copy home d)).fields.map FieldDecl.name := by
      have names : (s.typeAt (p.copy home d)).fields.map FieldDecl.name = (p.typeAt d).fields.map FieldDecl.name := names
      rw [names]
      exact mem_map_of_mem among
    obtain ⟨g,present,copy⟩ := mem_map.mp member
    exact ⟨g,present,by rw [copy]; exact same⟩
  · rw [revived.mirrors.old d inside]
    exact found

theorem readable_in_signature (inside : d.index < p.types.size)
    (count : (r.generics.length : Int) < arityLimit) (formed : p.Formed (p.typeParams d ++ r.genericParams) v)
    (clear : p.Clear home v) (ref : RefId) : Readable p s target (s.signatureScope (p.place home d) r.generics.length ref) v := by
  refine revived.mirrors.readable legible.orderly.formed.listed formed clear fun g among => ?_
  have offers := offers_declare (p.place home d) (.reference r.id) (.reference ref) _
    ((range r.generics.length).map fun i => "T" ++ toString i) rfl rfl (by simp) (legible.generics d) count among
  rwa [← revived.mirrors.generics_place inside] at offers

theorem methodReadable {id : MethodId} (formed : p.MethodRefFormed (p.scopeOf m) r d)
    (declaring : p.Clear home r.declaring) (returns : p.Clear home r.returns) (params : ∀ v ∈ r.params, p.Clear home v)
    (named : r.name ≠ "") (word : Text.isWord r.name = true) :
    MethodReadable p s target (copyScope p home m id) r d (p.place home d) := by
  have inside : d.index < p.types.size := formed.declaring.declares _ (mem_parts_self _) d formed.element
  obtain ⟨found,lookup⟩ := Option.isSome_iff_exists.mp formed.found
  obtain ⟨member,name,generics,signature⟩ := findMethod?_eq_some lookup
  have count : (r.generics.length : Int) < arityLimit := by
    rw [← generics]
    exact legible.methodGenerics found
  obtain ⟨n,among,copyName,copyGenerics,copyParams⟩ := exists_method_place legible revived inside member
  exact {
    element := formed.element
    declaring := readable_in_method legible revived.mirrors _ formed.declaring declaring
    found := by
      rw [revived.mirrors.findType?_eq legible.orderly.formed.listed,declaring.found.element formed.element]
      rfl
    returns := by
      rcases formed.returns with absent | formed
      · refine .inl ⟨absent,?_⟩
        rw [revived.mirrors.findType?_eq legible.orderly.formed.listed,Option.isSome_map]
        exact legible.void
      · exact .inr (readable_in_signature legible revived inside count formed returns)
    params := fun v among => readable_in_signature legible revived inside count (formed.params v among) (params v among)
    method := ⟨n,among,copyName.trans name,copyGenerics.trans generics,
      copyParams.trans (sameSignatureList_iff_spellings.mp signature)⟩
    named := named
    word := word
    count := count }

theorem operandReadable (id : MethodId) {b : Body} {o : Operand} (formed : p.OperandFormed (p.scopeOf m) b o)
    (clear : ∀ v ∈ o.refs, p.Clear home v) (plain : o.Plain) :
    OperandReadable p s target (copyScope p home m id) o := by
  cases o with
  | none => trivial
  | branch i => trivial
  | text w => trivial
  | int n => exact plain
  | type v => exact readable_in_method legible revived.mirrors _ formed (clear v (.head _))
  | field f =>
    obtain ⟨d,formed⟩ := formed
    have declaring : p.Clear home f.declaring := clear _ (.head _)
    have inside : d.index < p.types.size := formed.declaring.declares _ (mem_parts_self _) d formed.element
    refine ⟨d,p.place home d,formed.element,readable_in_method legible revived.mirrors _ formed.declaring declaring,?_,?_,
      field_place revived inside formed.found,plain.1,plain.2⟩
    · rw [revived.mirrors.findType?_eq legible.orderly.formed.listed,declaring.found.element formed.element]
      rfl
    · refine revived.mirrors.readable legible.orderly.formed.listed formed.fieldType (clear _ (.tail _ (.head _)))
        fun g among => ?_
      have offers := offers_declare (p.place home d) (.reference default) (.reference default) [] []
        rfl rfl rfl (legible.generics d) (by decide) (mem_append_left _ among)
      rwa [← revived.mirrors.generics_place inside] at offers
  | method o =>
    cases o with
    | plain r =>
      obtain ⟨d,formed⟩ := formed
      exact ⟨d,_,methodReadable legible revived formed (clear _ (.head _)) (clear _ (.tail _ (.head _)))
        (fun v among => clear v (.tail _ (.tail _ among))) plain.1 plain.2⟩
    | applied r args =>
      obtain ⟨⟨d,formed⟩,count,argsFormed⟩ := formed
      refine ⟨⟨d,_,methodReadable legible revived formed (clear _ (.head _)) (clear _ (.tail _ (.head _)))
        (fun v among => clear v (.tail _ (.tail _ (mem_append_left _ among)))) plain.1 plain.2.1⟩,plain.2.2,count,
        fun v among => ?_⟩
      exact readable_in_method legible revived.mirrors _ (argsFormed v among)
        (clear v (.tail _ (.tail _ (mem_append_right _ among))))

end

end Document

namespace Program

variable {p q : Program} {b c : Body} {i j : InstructionId}

theorem findIdx?_congr {f g : α → Bool} {xs : List α} (agree : ∀ a ∈ xs, f a = g a) : xs.findIdx? f = xs.findIdx? g := by
  induction xs with
  | nil => rfl
  | cons a rest ih =>
    rw [findIdx?_cons,findIdx?_cons,agree a (.head _),ih fun b member => agree b (.tail _ member)]

theorem indexOf?_of_mem (member : i ∈ b.code) : b.indexOf? i = some (b.code.idxOf i) := by
  rw [Body.indexOf?,findIdx?_eq_guard_findIdx_lt]
  have inside : b.code.findIdx (· == i) < b.code.length := idxOf_lt_length_iff.mpr member
  simp [Option.guard,inside,idxOf]

theorem labelOf_of_mem (member : i ∈ b.code) : labelOf b i = "IL_" ++ padded 4 (b.code.idxOf i : Int) := by
  rw [labelOf,indexOf?_of_mem member]

theorem labelOf_inj (first : i ∈ b.code) (second : j ∈ b.code) (same : labelOf b i = labelOf b j) : i = j := by
  rw [labelOf_of_mem first,labelOf_of_mem second] at same
  have numerals : padded 4 (b.code.idxOf i : Int) = padded 4 (b.code.idxOf j : Int) :=
    String.append_right_inj _ |>.mp same
  exact (idxOf_inj first).mp (Text.Decimal.padded_injective numerals)

theorem visible_padded (width : Nat) (n : Int) : ∀ c ∈ (padded width n).toList, Text.isBlank c = false := by
  intro c member
  rw [padded,String.toList_ofList] at member
  rcases mem_append.mp member with front | digit
  · rcases mem_append.mp front with sign | zero
    · split at sign
      · rw [mem_singleton.mp sign]
        decide
      · cases sign
    · rw [eq_of_mem_replicate zero]
      decide
  · exact Text.isBlank_of_isNameChar (isNameChar_of_digit digit)

theorem visible_label (b : Body) (i : InstructionId) : ∀ c ∈ (labelOf b i).toList, Text.isBlank c = false := by
  intro c member
  rw [labelOf,String.toList_append] at member
  rcases mem_append.mp member with start | numeral
  · exact (by decide : ∀ c ∈ "IL_".toList, Text.isBlank c = false) c start
  · exact visible_padded _ _ c numeral

theorem label_ne_nil (b : Body) (i : InstructionId) : (labelOf b i).toList ≠ [] := by
  rw [labelOf,String.toList_append]
  simp

def lineOf (p : Program) (b : Body) (i : InstructionId) : String :=
  match (p.instructionAt i).operand with
  | .branch target => (p.instructionAt i).opcode.name ++ " " ++ labelOf b target
  | operand => (p.instructionAt i).opcode.name ++ p.operandText operand

theorem lineOf_branch {t : InstructionId} (operand : (p.instructionAt i).operand = .branch t) :
    p.lineOf b i = (p.instructionAt i).opcode.name ++ (" " ++ labelOf b t) := by
  rw [lineOf,operand]
  exact String.append_assoc ..

theorem lineOf_straight (straight : ∀ t, (p.instructionAt i).operand ≠ .branch t) :
    p.lineOf b i = (p.instructionAt i).opcode.name ++ p.operandText (p.instructionAt i).operand := by
  rw [lineOf]
  split
  · next t operand => exact absurd operand (straight t)
  · rfl

theorem bodyLines_eq (p : Program) (b : Body) : p.bodyLines b = b.code.flatMap fun i =>
    if (p.branchTargets b).contains i then [".label " ++ labelOf b i,p.lineOf b i] else [p.lineOf b i] := rfl

/-- An instruction that is written as another, with its branch led to where the given renaming takes the target. -/
structure InstructionAlike (p q : Program) (f : InstructionId → InstructionId) (i j : Instruction) : Prop where
  opcode : j.opcode = i.opcode
  branch : ∀ t, i.operand = .branch t → j.operand = .branch (f t)
  straight : (∀ t, i.operand ≠ .branch t) → (∀ t, j.operand ≠ .branch t) ∧ q.operandText j.operand = p.operandText i.operand

section

variable {f : InstructionId → InstructionId} (code : c.code = b.code.map f)
  (injective : ∀ i ∈ b.code, ∀ j ∈ b.code, f i = f j → i = j)
include code injective

theorem labelOf_renamed (member : i ∈ b.code) : labelOf c (f i) = labelOf b i := by
  have index : c.indexOf? (f i) = b.indexOf? i := by
    rw [Body.indexOf?,Body.indexOf?,code,findIdx?_map]
    refine findIdx?_congr fun j among => ?_
    rw [Function.comp_apply,Bool.eq_iff_iff,beq_iff_eq,beq_iff_eq]
    exact ⟨injective j among i member,fun same => by rw [same]⟩
  rw [labelOf,labelOf,index]

theorem bodyLines_renamed (inside : ∀ i ∈ b.code, ∀ t, (p.instructionAt i).operand = .branch t → t ∈ b.code)
    (each : ∀ i ∈ b.code, InstructionAlike p q f (p.instructionAt i) (q.instructionAt (f i))) :
    q.bodyLines c = p.bodyLines b := by
  have targets : q.branchTargets c = (p.branchTargets b).map f := by
    rw [branchTargets,branchTargets,code,filterMap_map,map_filterMap]
    refine filterMap_congr fun i member => ?_
    have alike := each i member
    rw [Function.comp_apply]
    cases operand : (p.instructionAt i).operand with
    | branch t => rw [alike.branch t operand]; rfl
    | _ =>
      have straight := (alike.straight (by rw [operand]; exact nofun)).1
      cases copy : (q.instructionAt (f i)).operand with
      | branch t => exact absurd copy (straight t)
      | _ => rfl
  have among : ∀ t ∈ p.branchTargets b, t ∈ b.code := by
    intro t member
    obtain ⟨i,present,leads⟩ := mem_filterMap.mp member
    refine inside i present t ?_
    split at leads
    · next target operand => cases leads; exact operand
    · cases leads
  have line : ∀ i ∈ b.code, q.lineOf c (f i) = p.lineOf b i := by
    intro i member
    have alike := each i member
    by_cases branch : ∃ t, (p.instructionAt i).operand = .branch t
    · obtain ⟨t,operand⟩ := branch
      rw [lineOf_branch operand,lineOf_branch (alike.branch t operand),alike.opcode,
        labelOf_renamed code injective (inside i member t operand)]
    · have straight : ∀ t, (p.instructionAt i).operand ≠ .branch t := fun t operand => branch ⟨t,operand⟩
      obtain ⟨copy,text⟩ := alike.straight straight
      rw [lineOf_straight straight,lineOf_straight copy,alike.opcode,text]
  rw [bodyLines_eq,bodyLines_eq,targets,code,flatMap_map]
  refine flatMap_congr fun i member => ?_
  have listed : ((p.branchTargets b).map f).contains (f i) = (p.branchTargets b).contains i := by
    rw [Bool.eq_iff_iff,contains_iff_mem,contains_iff_mem,mem_map]
    constructor
    · rintro ⟨t,target,same⟩
      rwa [injective t (among t target) i member same] at target
    · exact fun target => ⟨i,target,rfl⟩
  rw [listed,line i member,labelOf_renamed code injective member]

end

end Program
namespace Program

variable {p q : Program}

theorem operandText_of_names (names : q.fullName = p.fullName) (o : Operand) : q.operandText o = p.operandText o := by
  have signature : ∀ t : TypeRef, t.signatureText q = t.signatureText p := fun t =>
    TypeRef.signatureText_congr (TypeRef.spelling_of_names names t)
  have texts : ∀ ts : List TypeRef, texts q ts = texts p ts := fun ts => by
    rw [texts_eq,texts_eq,funext (TypeRef.text_of_names names)]
  cases o with
  | type t => rw [operandText,operandText,TypeRef.text_of_names names]
  | field f => rw [operandText,operandText,FieldRef.text,FieldRef.text,signature,signature]
  | method o =>
    cases o with
    | plain r =>
      rw [operandText,operandText,MethodOperand.text,MethodOperand.text,MethodRef.text,MethodRef.text]
      simp only [signature,texts]
    | applied r args =>
      rw [operandText,operandText,MethodOperand.text,MethodOperand.text]
      simp only [signature,texts]
  | _ => rfl

end Program

namespace Document

variable {p s q : Program} {home target : ModuleId} {m id : MethodId} {b : Body} {t : Transcript}
  {scope : ParamScope}

theorem read_label {label : String} (visible : ∀ c ∈ label.toList, Text.isBlank c = false) (filled : label.toList ≠ [])
    (fresh : t.labels.lookup label = none) : t.read s target m scope (".label " ++ label) =
      some { t with labels := t.labels ++ [(label,t.items.length)] } := by
  have trimmed : Text.Trimmed (".label " ++ label).toList := by
    have whole := (Text.trimmed_of_visible (by decide : ∀ c ∈ ".label".toList, Text.isBlank c = false)).append
      (Text.trimmed_of_visible visible) [' '] (by decide) filled
    rw [String.toList_append]
    exact whole
  have start : ".label ".toList.isPrefixOf? (".label " ++ label).toList = some label.toList := by
    rw [isPrefixOf?_eq_some_iff_append_eq,String.toList_append]
  rw [Transcript.read]
  simp only [trimmed.trim_eq,start,Text.trimString,String.ofList_toList,(Text.trimmed_of_visible visible).trim_eq,fresh]
  rfl

theorem read_instruction {line : String} {x : Instruction × Option String} (trimmed : Text.Trimmed line.toList)
    (dotless : ∃ c rest, line.toList = c :: rest ∧ c ≠ '.')
    (read : s.readInstruction target scope line.toList ⟨m,t.items.length,0⟩ = .ok x) :
    t.read s target m scope line = some { t with items := t.items ++ [x] } := by
  have start : ".label ".toList.isPrefixOf? line.toList = none := by
    obtain ⟨c,rest,shape,plain⟩ := dotless
    rw [shape]
    have first : ('.' == c) = false := by simpa using Ne.symm plain
    show (if '.' == c then _ else none) = none
    rw [first]
    rfl
  rw [Transcript.read]
  simp only [trimmed.trim_eq,start,read]

def renamed (start : Nat) (b : Body) (i : InstructionId) : InstructionId := ⟨start + b.code.idxOf i⟩

theorem renamed_inj {j : InstructionId} (member : i ∈ b.code) (same : renamed start b i = renamed start b j) : i = j :=
  (idxOf_inj member).mp (Nat.add_left_cancel (congrArg InstructionId.index same))

structure LineRead (p : Program) (b : Body) (q : Program) (i : InstructionId) (read : Instruction) (label : Option String) :
    Prop where
  opcode : read.opcode = (p.instructionAt i).opcode
  branch : ∀ t, (p.instructionAt i).operand = .branch t → label = some (labelOf b t)
  straight : (∀ t, (p.instructionAt i).operand ≠ .branch t) → label = none ∧ (∀ t, read.operand ≠ .branch t) ∧
    q.operandText read.operand = p.operandText (p.instructionAt i).operand

structure ReadUpTo (p : Program) (b : Body) (s : Program) (front : List InstructionId) (t : Transcript) : Prop where
  items : List.Forall₂ (fun i x => LineRead p b s i x.1 x.2) front t.items
  labels : t.labels = (front.filter (p.branchTargets b).contains).map fun i => (labelOf b i,b.code.idxOf i)

theorem lineRead (id : MethodId) (ref : RefId) (legible : Legible p home) (revived : Revived p home target s)
    (member : m.owner ∈ p.allTypes home) (filled : (p.methodAt m).body = some b) (among : i ∈ b.code) :
    Text.Trimmed (p.lineOf b i).toList ∧ (∃ c rest, (p.lineOf b i).toList = c :: rest ∧ c ≠ '.') ∧
      ∃ read label, s.readInstruction target (copyScope p home m id) (p.lineOf b i).toList ref = .ok (read,label) ∧
        LineRead p b s i read label := by
  have formed := legible.orderly.formed.body filled
  obtain ⟨known,plain⟩ := legible.plain m b member filled i among
  obtain ⟨-,⟨c,rest,shape,dotless⟩,-⟩ := opcode_name known
  have start : ∀ w : String, ∃ c rest, ((p.instructionAt i).opcode.name ++ w).toList = c :: rest ∧ c ≠ '.' := fun w =>
    ⟨c,rest ++ w.toList,by rw [String.toList_append,shape]; rfl,dotless⟩
  by_cases branch : ∃ t, (p.instructionAt i).operand = .branch t
  · obtain ⟨t,operand⟩ := branch
    have kind : (p.instructionAt i).opcode.operandKind = .branch := by
      rw [← formed.kinds i among,operand]
      rfl
    have trimmed := Text.trimmed_of_visible (visible_label b t)
    rw [lineOf_branch operand]
    refine ⟨trimmed_line known trimmed (label_ne_nil b t),start _,{ opcode := (p.instructionAt i).opcode },
      some (labelOf b t),readInstruction_branch known kind trimmed (label_ne_nil b t),rfl,?_,?_⟩
    · intro t' same
      rw [operand] at same
      cases same
      rfl
    · exact fun straight => absurd operand (straight t)
  · have straight : ∀ t, (p.instructionAt i).operand ≠ .branch t := fun t operand => branch ⟨t,operand⟩
    have notBranch : ∀ {o : Operand}, o.kind ≠ .branch ↔ ∀ t, o ≠ .branch t := by
      intro o
      cases o <;> simp [Operand.kind]
    have clear : ∀ v ∈ (p.instructionAt i).operand.refs, p.Clear home v := by
      intro v present
      have within : m ∈ p.methodsOf m.owner := mem_methodsOf.mpr ⟨rfl,position_lt_of_body filled⟩
      refine clear_method legible member within v ?_
      rw [methodRefs,filled]
      exact mem_append_right _ (mem_append_right _ (mem_flatMap.mpr ⟨i,among,present⟩))
    have readable := operandReadable legible revived id (formed.operands i among) clear plain
    obtain ⟨o,read,kind,text⟩ := readable.readInstruction_text known (formed.kinds i among) (notBranch.mpr straight) ref
    rw [lineOf_straight straight]
    refine ⟨readable.trimmed known,start _,_,none,read,rfl,fun t operand => absurd operand (straight t),fun _ => ⟨rfl,?_,text⟩⟩
    exact notBranch.mp (by rw [kind]; exact notBranch.mpr straight)

section

variable (legible : Legible p home) (revived : Revived p home target s) (member : m.owner ∈ p.allTypes home)
  (filled : (p.methodAt m).body = some b)
include legible revived member filled

theorem ReadUpTo.step (id : MethodId) {front back : List InstructionId} (reading : ReadUpTo p b s front t)
    (split : b.code = front ++ i :: back) :
    ∃ u, (if (p.branchTargets b).contains i then [".label " ++ labelOf b i,p.lineOf b i] else [p.lineOf b i]).foldlM
        (read s target id (copyScope p home m id)) t = some u ∧ ReadUpTo p b s (front ++ [i]) u := by
  have distinct := (legible.orderly.formed.body filled).distinct
  have among : i ∈ b.code := by rw [split]; simp
  rw [split] at distinct
  have new : i ∉ front := fun early => (disjoint_of_nodup_append distinct) early (.head _)
  obtain ⟨trimmed,dotless,read,label,parsed,line⟩ := lineRead id ⟨id,t.items.length,0⟩ legible revived member filled among
  have items : Forall₂ (fun i x => LineRead p b s i x.1 x.2) (front ++ [i]) (t.items ++ [(read,label)]) :=
    rel_append reading.items (.cons line .nil)
  by_cases target : (p.branchTargets b).contains i = true
  · have fresh : t.labels.lookup (labelOf b i) = none := by
      rw [lookup_eq_none_iff,reading.labels]
      intro e known
      obtain ⟨j,kept,rfl⟩ := mem_map.mp known
      have early : j ∈ front := mem_of_mem_filter kept
      simp only [bne_iff_ne]
      intro same
      exact new (labelOf_inj among (by rw [split]; exact mem_append_left _ early) same ▸ early)
    have place : b.code.idxOf i = t.items.length := by
      rw [split,idxOf_append_of_notMem new,idxOf_cons_self,← reading.items.length_eq]
      rfl
    refine ⟨⟨t.items ++ [(read,label)],t.labels ++ [(labelOf b i,t.items.length)]⟩,?_,items,?_⟩
    · rw [if_pos target,foldlM_cons,read_label (visible_label b i) (label_ne_nil b i) fresh]
      rw [Option.bind_eq_bind,Option.bind_some,foldlM_cons,
        read_instruction (t := ⟨t.items,t.labels ++ [(labelOf b i,t.items.length)]⟩) trimmed dotless parsed]
      rfl
    · rw [filter_append,filter_cons_of_pos target,map_append,← reading.labels,← place]
      rfl
  · refine ⟨{ t with items := t.items ++ [(read,label)] },?_,items,?_⟩
    · rw [if_neg target,foldlM_cons,read_instruction trimmed dotless parsed]
      rfl
    · rw [filter_append,filter_cons_of_neg target,filter_nil,append_nil]
      exact reading.labels

theorem readLines_all (id : MethodId) : ∃ t, (p.bodyLines b).foldlM (read s target id (copyScope p home m id)) {} = some t ∧
    ReadUpTo p b s b.code t := by
  rw [bodyLines_eq,foldlM_flatMap]
  have later : ∀ (back front : List InstructionId) (t : Transcript), b.code = front ++ back → ReadUpTo p b s front t →
      ∃ u, back.foldlM (fun t i => (if (p.branchTargets b).contains i then [".label " ++ labelOf b i,p.lineOf b i]
        else [p.lineOf b i]).foldlM (read s target id (copyScope p home m id)) t) t = some u ∧
        ReadUpTo p b s b.code u := by
    intro back
    induction back with
    | nil =>
      intro front t split reading
      rw [append_nil] at split
      exact ⟨t,rfl,split ▸ reading⟩
    | cons i back ih =>
      intro front t split reading
      obtain ⟨u,first,next⟩ := reading.step legible revived member filled id split
      rw [foldlM_cons,first]
      exact ih (front ++ [i]) u (by rw [split,append_assoc]; rfl) next
  exact later b.code [] {} rfl ⟨.nil,rfl⟩

end

section

variable (reading : ReadUpTo p b s b.code t)
  (inside : ∀ i ∈ b.code, ∀ target, (p.instructionAt i).operand = .branch target → target ∈ b.code)
include reading inside

theorem ReadUpTo.lookup {target : InstructionId} (among : i ∈ b.code) (operand : (p.instructionAt i).operand = .branch target) :
    t.labels.lookup (labelOf b target) = some (b.code.idxOf target) := by
  have present := inside i among target operand
  rw [reading.labels]
  refine lookup_map (mem_filter.mpr ⟨present,contains_iff_mem.mpr ?_⟩) fun j kept same =>
    labelOf_inj present (mem_of_mem_filter kept) same
  exact mem_filterMap.mpr ⟨i,among,by rw [operand]⟩

theorem ReadUpTo.closed : t.Closed := by
  intro x member label waits
  obtain ⟨i,among,line⟩ := left_of_forall₂ reading.items member
  by_cases branch : ∃ target, (p.instructionAt i).operand = .branch target
  · obtain ⟨target,operand⟩ := branch
    rw [line.branch target operand] at waits
    cases waits
    refine ⟨_,reading.lookup inside among operand,?_⟩
    rw [← reading.items.length_eq]
    exact idxOf_lt_length_iff.mpr (inside i among target operand)
  · rw [(line.straight fun target operand => branch ⟨target,operand⟩).1] at waits
    cases waits

theorem ReadUpTo.instructionAlike (names : q.fullName = s.fullName)
    (placed : ∀ k x, t.items[k]? = some x → q.instructionAt ⟨start + k⟩ = t.settle start x) (among : i ∈ b.code) :
    InstructionAlike p q (renamed start b) (p.instructionAt i) (q.instructionAt (renamed start b i)) := by
  have here := idxOf_lt_length_iff.mpr among
  have there : b.code.idxOf i < t.items.length := by rw [← reading.items.length_eq]; exact here
  have line := reading.items.get here there
  have place : b.code.get ⟨b.code.idxOf i,here⟩ = i := getElem_idxOf here
  rw [place] at line
  have same := placed _ _ (getElem?_eq_getElem there)
  obtain ⟨⟨read,label⟩,shape⟩ : ∃ x, t.items.get ⟨b.code.idxOf i,there⟩ = x := ⟨_,rfl⟩
  rw [shape] at line
  rw [show t.items[b.code.idxOf i] = (read,label) from shape] at same
  rw [show q.instructionAt (renamed start b i) = _ from same]
  by_cases branch : ∃ target, (p.instructionAt i).operand = .branch target
  · obtain ⟨target,operand⟩ := branch
    obtain rfl : label = some (labelOf b target) := line.branch target operand
    rw [settle_of_lookup (reading.lookup inside among operand)]
    refine ⟨line.opcode,fun other same => ?_,fun straight => absurd operand (straight target)⟩
    rw [operand] at same
    cases same
    rfl
  · have straight : ∀ target, (p.instructionAt i).operand ≠ .branch target := fun target operand => branch ⟨target,operand⟩
    obtain ⟨absent,copy,text⟩ := line.straight straight
    cases absent
    exact ⟨line.opcode,fun target operand => absurd operand (straight target),
      fun _ => ⟨copy,by rw [operandText_of_names names]; exact text⟩⟩

end

/-- Bodies that are written alike. -/
structure BodyAlike (p q : Program) (b c : Body) : Prop where
  initLocals : c.initLocals = b.initLocals
  locals : c.locals.map (·.spelling q) = b.locals.map (·.spelling p)
  lines : q.bodyLines c = p.bodyLines b
  inside : ∀ i ∈ c.code, i.index < q.code.size

/-- A method has a body that is written as that of another, or both have none. -/
def BodiesAlike (p q : Program) : Option Body → Option Body → Prop
  | none, o => o = none
  | some b, o => ∃ c, o = some c ∧ BodyAlike p q b c

section

variable (legible : Legible p home) (revived : Revived p home target s) (member : m.owner ∈ p.allTypes home)
  (within : m.position < (p.typeAt m.owner).methods.length) (place : id = ⟨p.copy home m.owner,m.position⟩)
include legible revived member within place

omit legible in
theorem methodAlike_copy : id.owner.index < s.types.size ∧ id.position < (s.typeAt id.owner).methods.length ∧
    MethodAlike p s (p.methodAt m) (s.methodAt id) := by
  subst place
  have each := (revived.restored m.owner member).methods
  have length := each.length_eq
  have position : m.position < (s.typeAt (p.copy home m.owner)).methods.length := by rw [← length]; exact within
  refine ⟨revived.mirrors.inside _ member,position,?_⟩
  have alike := Forall₂.get each within position
  rw [methodAt_eq_of_getElem? (getElem?_eq_getElem within),
    methodAt_eq_of_getElem? (m := ⟨p.copy home m.owner,m.position⟩) (getElem?_eq_getElem position)]
  exact alike

theorem recites_restored {b : Body} (filled : (p.methodAt m).body = some b) :
    ∃ locals t, Recites s target ⟨p.buildMethod (p.methodAt m),id⟩ locals t ∧
      locals.map (·.spelling s) = b.locals.map (·.spelling p) ∧ ReadUpTo p b s b.code t := by
  obtain ⟨-,-,alike⟩ := methodAlike_copy revived member within place
  have formed := legible.orderly.formed.body filled
  have doc : (p.buildMethod (p.methodAt m)).locals = b.locals.map (·.text p) ∧
      (p.buildMethod (p.methodAt m)).body = p.bodyLines b := by
    rw [buildMethod,filled]
    exact ⟨rfl,rfl⟩
  have scope : methodScope s id (s.methodAt id).generics = copyScope p home m id := by
    rw [copyScope,methodScope,typeParams,alike.generics,place,revived.mirrors.generics _ member]
  have clear : ∀ v ∈ b.locals, p.Clear home v := by
    intro v among
    refine clear_method legible member (mem_methodsOf.mpr ⟨rfl,within⟩) v ?_
    rw [methodRefs,filled]
    exact mem_append_right _ (mem_append_left _ among)
  obtain ⟨locals,each⟩ := exists_forall₂ fun v among =>
    (readable_in_method legible revived.mirrors id (formed.locals v among) (clear v among)).readType_text
  obtain ⟨t,lines,reading⟩ := readLines_all legible revived member filled id
  refine ⟨locals,t,⟨?_,?_,?_,?_,reading.closed formed.target_mem⟩,map_eq_of_forall₂ (each.imp fun _ _ both => both.2),reading⟩
  · rw [MethodDecl.isAbstract,alike.flags]
    exact formed.concrete
  · rw [alike.native]
    exact formed.managed
  · rw [scope,doc.1]
    exact forall₂_map_left_iff.mpr (each.imp fun _ _ both => both.1)
  · rw [scope,doc.2]
    exact lines

omit revived within place in
theorem isBodiless_buildMethod : isBodiless (p.buildMethod (p.methodAt m)) = (p.methodAt m).body.isNone := by
  rw [isBodiless,buildMethod]
  cases filled : (p.methodAt m).body with
  | none => rfl
  | some b =>
    show ((p.bodyLines b).isEmpty && (b.locals.map (·.text p)).isEmpty) = false
    rw [Bool.and_eq_false_iff]
    rcases legible.filled m b member filled with locals | code
    · right
      simpa using locals
    · left
      obtain ⟨i,rest,shape⟩ := exists_cons_of_ne_nil code
      rw [bodyLines_eq,shape,flatMap_cons]
      split <;> rfl

theorem bodiesAlike_of_spoken (names : q.fullName = s.fullName)
    (spoken : Spoken s target ⟨p.buildMethod (p.methodAt m),id⟩ q) :
    BodiesAlike p q (p.methodAt m).body (q.methodAt id).body := by
  have bodiless := isBodiless_buildMethod legible member
  cases filled : (p.methodAt m).body with
  | none =>
    rw [filled] at bodiless
    rcases spoken with ⟨-,absent⟩ | ⟨present,-⟩
    · exact absent
    · rw [bodiless] at present
      cases present
  | some b =>
    rw [filled] at bodiless
    obtain ⟨locals,t,recites,spelled,reading⟩ := recites_restored legible revived member within place filled
    rcases spoken with ⟨absent,-⟩ | ⟨-,locals',u,start,again,body,items⟩
    · rw [bodiless] at absent
      cases absent
    · obtain ⟨rfl,rfl⟩ := recites.unique again
      have formed := legible.orderly.formed.body filled
      have code : block start u.items.length = b.code.map (renamed start b) := by
        rw [← reading.items.length_eq]
        refine ext_getElem (by simp [block]) fun k first second => ?_
        simp [block,renamed,formed.distinct.idxOf_getElem]
      have init : (p.buildMethod (p.methodAt m)).initLocals = b.initLocals := by
        rw [buildMethod,filled]
      refine ⟨_,body,init,?_,?_,fun i among => ?_⟩
      · simp only [TypeRef.spelling_of_names names]
        exact spelled
      · exact bodyLines_renamed code (fun i first j _ same => renamed_inj first same) formed.target_mem fun i among =>
          reading.instructionAlike formed.target_mem names (fun k x at_ => (items k x at_).2) among
      · obtain ⟨above,below⟩ := mem_block.mp among
        have within : i.index - start < u.items.length := by omega
        have bound := (items _ _ (getElem?_eq_getElem within)).1
        omega

end

def methodCopy (p : Program) (home : ModuleId) (m : MethodId) : MethodId := ⟨p.copy home m.owner,m.position⟩

/-- The copies of all types have their members and bodies back. -/
structure Refilled (p : Program) (home target : ModuleId) (q : Program) : Prop where
  revived : Revived p home target q
  bodies : ∀ t ∈ p.allTypes home, ∀ m ∈ p.methodsOf t,
    BodiesAlike p q (p.methodAt m).body (q.methodAt (methodCopy p home m)).body

section

variable {pending : List PendingType}
  (each : Forall₂ (fun t pd => pd.id = p.copy home t ∧ p.Entered home t pd.doc) (p.allTypes home) pending)
include each

theorem mem_copied_methods {x : PendingMethod} : x ∈ (pending.map PendingType.methods).flatten ↔
    ∃ t ∈ p.allTypes home, ∃ m ∈ p.methodsOf t, x = ⟨p.buildMethod (p.methodAt m),methodCopy p home m⟩ := by
  have methods {t : TypeId} {pd : PendingType} (id : pd.id = p.copy home t) (entered : p.Entered home t pd.doc) :
      pd.methods = (p.methodsOf t).map fun m => ⟨p.buildMethod (p.methodAt m),methodCopy p home m⟩ := by
    rw [PendingType.methods,entered.zipIdx_methods,map_map,id]
    refine map_congr_left fun m among => ?_
    rw [methodCopy,(mem_methodsOf.mp among).1]
    rfl
  rw [mem_flatten]
  constructor
  · rintro ⟨ms,listed,among⟩
    obtain ⟨pd,present,rfl⟩ := mem_map.mp listed
    obtain ⟨t,member,id,entered⟩ := left_of_forall₂ each present
    rw [methods id entered] at among
    obtain ⟨m,owned,rfl⟩ := mem_map.mp among
    exact ⟨t,member,m,owned,rfl⟩
  · rintro ⟨t,member,m,owned,rfl⟩
    obtain ⟨pd,present,id,entered⟩ := right_of_forall₂ each member
    refine ⟨_,mem_map_of_mem present,?_⟩
    rw [methods id entered]
    exact mem_map_of_mem owned

theorem bodies_read {b r : Program} (legible : Legible p home) (sketched : Sketched target b r pending)
    (populated : Populated r target pending s) (revived : Revived p home target s) :
    ∃ q, ((pending.map PendingType.methods).flatten.forM (fillBody target)).run s = .ok (⟨⟩,q) ∧
      q.modules = s.modules ∧ Refilled p home target q := by
  have place {t : TypeId} {m : MethodId} (member : t ∈ p.allTypes home) (owned : m ∈ p.methodsOf t) :
      m.owner ∈ p.allTypes home ∧ m.position < (p.typeAt m.owner).methods.length := by
    obtain ⟨rfl,within⟩ := mem_methodsOf.mp owned
    exact ⟨member,within⟩
  have waiting := populated.waiting sketched
  have distinct := populated.nodup_methods sketched
  obtain ⟨q,ran⟩ := exists_voiced waiting distinct fun x among => by
    obtain ⟨t,member,m,owned,rfl⟩ := (mem_copied_methods each).mp among
    obtain ⟨own,within⟩ := place member owned
    rw [isBodiless_buildMethod legible own]
    cases filled : (p.methodAt m).body with
    | none => exact .inl rfl
    | some b =>
      obtain ⟨locals,u,recites,-⟩ := recites_restored legible revived own within rfl filled
      exact .inr ⟨locals,u,recites⟩
  have voiced := voiced_of_run waiting distinct ran
  have fresh (t : TypeId) (old : t.index < p.types.size) : q.typeAt t = s.typeAt t := by
    refine voiced.typeAt_eq fun x among same => ?_
    obtain ⟨u,-,m,-,rfl⟩ := (mem_copied_methods each).mp among
    rw [← same] at old
    exact absurd old (Nat.not_lt_of_le (Nat.le_add_right _ _))
  refine ⟨q,ran,voiced.modules_eq,⟨revived.mirrors.keep voiced.agree.header voiced.modules_eq fresh,fun t member =>
    (revived.restored t member).keep voiced.agree.header voiced.modules_eq (voiced.agree.view_eq _)⟩,fun t member m owned => ?_⟩
  obtain ⟨own,within⟩ := place member owned
  exact bodiesAlike_of_spoken legible revived own within rfl voiced.agree.header.fullName_eq
    (voiced.spoken _ ((mem_copied_methods each).mpr ⟨t,member,m,owned,rfl⟩))

end

end Document
end Loom
