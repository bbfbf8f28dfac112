import Mathlib.Logic.Relation
import Loom.Proofs.Moving
import Loom.Proofs.Safety

/-!
Whether linking ends. Each type that names a declaring type is put into the first type that has this name at the moment.
Chains end as long as no type is put into itself or into a type inside it. Once one is, its chain never ends, and the
names of the module cannot be compared any more.
-/
namespace Loom

open Document.Tree Linkage List Program

variable {ts : List TypeId} {t : TypeId} {types : List PendingType}

namespace Program

variable {p : Program} {t u v o : TypeId} {n : Nat}

/-- The declaring chain of the first type leads to the second. -/
def Inside (p : Program) : TypeId → TypeId → Prop := Relation.ReflTransGen fun t u => (p.typeAt t).declaring = some u

theorem chainEnds_of_loop (declaring : (p.typeAt t).declaring = some u) (inside : p.Inside u t) : p.chainEnds t = false := by
  have never : ∀ n v, p.Inside v t → p.chainEndsWithin n v = false := by
    intro n
    induction n with
    | zero => exact fun _ _ => rfl
    | succ n ih =>
      intro v inside
      rw [chainEndsWithin]
      rcases inside.cases_head with rfl | ⟨w,step,rest⟩
      · rw [declaring]
        exact ih u ‹_›
      · rw [step]
        exact ih w rest
  exact never _ t .refl

def putInto (p : Program) (t o : TypeId) : Program := p.modifyType t fun d => { d with declaring := some o }

theorem typeAt_putInto_of_ne (different : v ≠ t) : (p.putInto t o).typeAt v = p.typeAt v := typeAt_modifyType_of_ne different _

theorem declaring_putInto (inside : t.index < p.types.size) : ((p.putInto t o).typeAt t).declaring = some o := by
  rw [putInto,typeAt_modifyType_self inside]

theorem Inside.putInto (top : (p.typeAt t).declaring = none) (inside : p.Inside u v) : (p.putInto t o).Inside u v := by
  refine Relation.ReflTransGen.mono (fun x y step => ?_) _ _ inside
  rw [typeAt_putInto_of_ne]
  · exact step
  · rintro rfl
    rw [top] at step
    cases step

theorem chainEndsWithin_putInto (apart : ¬p.Inside v t) : (p.putInto t o).chainEndsWithin n v = p.chainEndsWithin n v := by
  induction n generalizing v with
  | zero => rfl
  | succ n ih =>
    rw [chainEndsWithin,chainEndsWithin,typeAt_putInto_of_ne fun same : v = t => apart (same ▸ .refl)]
    cases declaring : (p.typeAt v).declaring with
    | none => rfl
    | some w => exact ih fun inside => apart (inside.head declaring)

/-- Chains still end after a type is put into one that does not stand inside it. -/
theorem chainEnds_putInto (apart : ¬p.Inside o t) (outer : p.chainEnds o = true) (ends : p.chainEnds v = true) :
    (p.putInto t o).chainEnds v = true := by
  have longer : ∀ n v, p.chainEndsWithin n v = true → (p.putInto t o).chainEndsWithin (n + (p.types.size + 1)) v = true := by
    intro n
    induction n with
    | zero => intro v ends; cases ends
    | succ n ih =>
      intro v ends
      rw [Nat.succ_add,chainEndsWithin]
      by_cases moved : v = t ∧ t.index < p.types.size
      · obtain ⟨rfl,inside⟩ := moved
        rw [declaring_putInto inside]
        refine chainEndsWithin_mono ?_ (Nat.le_add_left _ n)
        rw [chainEndsWithin_putInto apart]
        exact outer
      · have same : (p.putInto t o).typeAt v = p.typeAt v := by
          by_cases other : v = t
          · subst other
            have beyond := Nat.le_of_not_lt fun inside => moved ⟨rfl,inside⟩
            rw [typeAt_of_le beyond,typeAt_of_le (by simpa [putInto] using beyond)]
          · exact typeAt_putInto_of_ne other
        rw [chainEndsWithin] at ends
        rw [same]
        cases declaring : (p.typeAt v).declaring with
        | none => rfl
        | some w =>
          rw [declaring] at ends
          exact ih w ends
  exact chainEnds_of_within (longer _ v ends)

end Program

namespace Document

variable {home : ModuleId} {p b s q : Program} {P : Failure → Prop} {trees : List Tree} {x : PendingType}
  {front back : List PendingType} {references : List ModuleId} {doc : Document}

theorem bindDeclaring_eq_ok (done : (bindDeclaring home x).run s = .ok (⟨⟩,q)) :
    (x.doc.declaring = "" ∧ q = s) ∨ (x.doc.declaring ≠ "" ∧ ∃ own outer,
      findNamed s x.doc.declaring (s.allTypes home) = .ok own ∧
      own.or ((s.moduleAt home).references.findSome? (s.findOwnType? · x.doc.declaring)) = some outer ∧
      q = s.putInto x.id outer) := by
  rw [bindDeclaring] at done
  split at done
  · next plain =>
    obtain ⟨-,rfl⟩ := run_pure_eq_ok.mp done
    exact .inl ⟨by simpa using plain,rfl⟩
  · next named =>
    rw [run_get_bind] at done
    obtain ⟨own,found,done⟩ := run_lift_bind_eq_ok.mp done
    split at done
    · next outer chosen =>
      obtain rfl := run_modify_eq_ok.mp done
      exact .inr ⟨by simpa using named,own,outer,found,chosen,rfl⟩
    · exact absurd done run_throw_ne_ok

theorem bindDeclaring_of_found {outer : TypeId} (named : x.doc.declaring ≠ "")
    (found : findNamed s x.doc.declaring (s.allTypes home) = .ok (some outer)) :
    (bindDeclaring home x).run s = .ok (⟨⟩,s.putInto x.id outer) := by
  rw [bindDeclaring,if_neg (by simpa using named),run_get_bind]
  exact run_lift_bind_eq_ok.mpr ⟨_,found,run_modify_eq_ok.mpr rfl⟩

theorem bindDeclaring_reports (ends : ∀ t ∈ s.allTypes home, s.chainEnds t = true) :
    FailsOnly P ((bindDeclaring home x).run s) := by
  rw [bindDeclaring]
  split
  · exact .ok _
  · rw [run_get_bind]
    refine FailsOnly.linking_bind (.linking_lift ?_) fun own t _ => ?_
    · rw [findNamed_eq_find? _ ends]
      exact .ok _
    · split
      · exact .ok _
      · exact .refused _

theorem checkNames_reports {seen : List String} (ends : ∀ t ∈ ts, s.chainEnds t = true) :
    FailsOnly P (checkNames s seen ts) := by
  induction ts generalizing seen with
  | nil => exact .ok _
  | cons t rest ih =>
    rw [checkNames,if_neg (by simp [ends t (.head _)])]
    simp only
    split
    · exact .refused _
    · exact ih fun u member => ends u (.tail _ member)

theorem findNamed_stuck (name : String) (member : t ∈ ts) (endless : s.chainEnds t = false) :
    findNamed s name ts = .error .unbounded ∨ ∃ u, findNamed s name ts = .ok (some u) := by
  induction ts with
  | nil => cases member
  | cons u rest ih =>
    rw [findNamed]
    split
    · exact .inl rfl
    · next ends =>
      split
      · exact .inr ⟨u,rfl⟩
      · refine ih ((mem_cons.mp member).resolve_left ?_)
        rintro rfl
        simp [endless] at ends

theorem checkNames_stuck (seen : List String) (member : t ∈ ts) (endless : s.chainEnds t = false) :
    checkNames s seen ts = .error .unbounded ∨ ∃ name, checkNames s seen ts = .error (.link name .declaredTwice) := by
  induction ts generalizing seen with
  | nil => cases member
  | cons u rest ih =>
    rw [checkNames]
    split
    · exact .inl rfl
    · next ends =>
      simp only
      split
      · exact .inr ⟨_,rfl⟩
      · refine ih _ ((mem_cons.mp member).resolve_left ?_)
        rintro rfl
        simp [endless] at ends

/-- The first type of the module with the name that a type gives is the type itself, or stands inside it. -/
def Closing (home : ModuleId) (s : Program) (x : PendingType) : Prop :=
  x.doc.declaring ≠ "" ∧ ∃ outer, findNamed s x.doc.declaring (s.allTypes home) = .ok (some outer) ∧ s.Inside outer x.id

/-- When the types have their turns, one of them is put into itself or into a type inside it. -/
inductive Closes (home : ModuleId) : Program → List PendingType → Prop
  | here {s : Program} {x : PendingType} {back : List PendingType} (closing : Closing home s x) : Closes home s (x :: back)
  | later {s q : Program} {x : PendingType} {back : List PendingType} (done : (bindDeclaring home x).run s = .ok (⟨⟩,q))
      (closes : Closes home q back) : Closes home s (x :: back)

/-- Some types have had their turn; the others are as they were declared. -/
structure Turned (b : Program) (back : List PendingType) (s : Program) : Prop where
  modules_eq : s.modules = b.modules
  size_eq : s.types.size = b.types.size
  nested_eq : ∀ t, (s.typeAt t).nested = (b.typeAt t).nested
  waiting : ∀ x ∈ back, s.typeAt x.id = b.typeAt x.id

theorem Turned.allTypes_eq (turned : Turned b back s) (h : ModuleId) : s.allTypes h = b.allTypes h :=
  allTypes_of_nested turned.size_eq turned.nested_eq turned.modules_eq h

theorem forall_ne_of_nodup (distinct : ((x :: back).map PendingType.id).Nodup) :
    (∀ y ∈ back, y.id ≠ x.id) ∧ (back.map PendingType.id).Nodup := by
  obtain ⟨fresh,distinct⟩ := nodup_cons.mp distinct
  exact ⟨fun y later same => fresh (same ▸ mem_map_of_mem later),distinct⟩

theorem Turned.skip (turned : Turned b (x :: back) s) : Turned b back s :=
  ⟨turned.modules_eq,turned.size_eq,turned.nested_eq,fun y later => turned.waiting y (.tail _ later)⟩

theorem Turned.putInto (turned : Turned b (x :: back) s) (outer : TypeId) (new : ∀ y ∈ back, y.id ≠ x.id) :
    Turned b back (s.putInto x.id outer) where
  modules_eq := turned.modules_eq
  size_eq := by rw [Program.putInto,Program.modifyType,Array.size_modify]; exact turned.size_eq
  nested_eq t := by
    have kept := Program.view_modifyType (p := s) (t := x.id) (f := fun d => { d with declaring := some outer }) TypeDecl.nested
      (fun _ => rfl) t
    exact kept.trans (turned.nested_eq t)
  waiting y later := (Program.typeAt_putInto_of_ne (new y later)).trans (turned.waiting y (.tail _ later))

section

variable (formed : p.WellFormed) (grove : Grove home p b trees)
include grove

theorem Grove.top (member : x ∈ trees.flatMap pending) (named : x.doc.declaring ≠ "") : (b.typeAt x.id).declaring = none := by
  obtain ⟨tree,grown,among⟩ := mem_flatMap.mp member
  rcases mem_cons.mp among with rfl | below
  · exact (grove.grown tree grown).top
  · exact absurd ((grove.grown tree grown).plain x below) named

/-- So far no type was put into itself or into a type inside it. -/
structure Unclosed (p b : Program) (back : List PendingType) (s : Program) : Prop extends Turned b back s where
  kept : ∀ t : TypeId, t.index < p.types.size → s.typeAt t = b.typeAt t
  ends : ∀ t : TypeId, t.index < s.types.size → s.chainEnds t = true

theorem Grove.unclosed : Unclosed p b (trees.flatMap pending) b := by
  refine ⟨⟨rfl,rfl,fun _ => rfl,fun _ _ => rfl⟩,fun _ _ => rfl,fun t inside => ?_⟩
  rcases grove.covered t inside with old | ⟨x,member,rfl⟩
  · exact grove.kept.chainEnds grove.grounded old
  · obtain ⟨tree,grown,among⟩ := mem_flatMap.mp member
    exact ((Moved.start home b).stands_top grove (by simp) grown (by simp)).1 x among

theorem Unclosed.old_of_inside {u : TypeId} (unclosed : Unclosed p b back s) (old : t.index < p.types.size)
    (inside : s.Inside t u) : u.index < p.types.size := by
  induction inside with
  | refl => exact old
  | @tail v w _ step ih =>
    rw [unclosed.kept v ih,grove.kept.declaring ih] at step
    exact grove.grounded.inside v ih w step

include formed

theorem Unclosed.old_of_mem {h : ModuleId} (unclosed : Unclosed p b back s) (other : h ≠ home)
    (member : t ∈ s.allTypes h) : t.index < p.types.size := by
  obtain ⟨roots,listedIn⟩ := grove.listedIn
  rw [unclosed.allTypes_eq h,allTypes_kept formed.grounded formed.nests formed.listed grove.kept
    (listedIn.elsewhere h other)] at member
  exact formed.listed.allTypes member

theorem Unclosed.step (unclosed : Unclosed p b (x :: back) s) (member : x ∈ trees.flatMap pending)
    (new : ∀ y ∈ back, y.id ≠ x.id) (fine : ¬Closing home s x) (done : (bindDeclaring home x).run s = .ok (⟨⟩,q)) :
    Unclosed p b back q := by
  have listed (t : TypeId) (among : t ∈ s.allTypes home) : t.index < s.types.size := by
    rw [unclosed.allTypes_eq home] at among
    rw [unclosed.size_eq]
    exact grove.listed.allTypes among
  rcases bindDeclaring_eq_ok done with ⟨-,rfl⟩ | ⟨named,own,outer,found,chosen,rfl⟩
  · exact ⟨unclosed.skip,unclosed.kept,unclosed.ends⟩
  · have away : ¬s.Inside outer x.id ∧ s.chainEnds outer = true := by
      rcases Option.or_eq_some_iff.mp chosen with rfl | ⟨rfl,other⟩
      · exact ⟨fun inside => fine ⟨named,outer,found,inside⟩,unclosed.ends outer (listed outer (findNamed_mem found))⟩
      · obtain ⟨h,-,found'⟩ := exists_of_findSome?_eq_some other
        have different : h ≠ home := by
          rintro rfl
          rw [findNamed_eq_find? _ fun t among => unclosed.ends t (listed t among)] at found
          rw [findOwnType?,Except.ok.inj found] at found'
          cases found'
        have old := unclosed.old_of_mem formed grove different (mem_of_find?_eq_some found')
        refine ⟨fun inside => ?_,unclosed.ends outer ?_⟩
        · exact Nat.not_lt_of_le (grove.new x member) (unclosed.old_of_inside grove old inside)
        · rw [unclosed.size_eq]
          exact Nat.lt_of_lt_of_le old grove.kept.size_le
    refine ⟨unclosed.toTurned.putInto outer new,fun t old => ?_,fun t inside => ?_⟩
    · rw [typeAt_putInto_of_ne]
      · exact unclosed.kept t old
      · rintro rfl
        exact Nat.not_lt_of_le (grove.new x member) old
    · refine chainEnds_putInto away.1 away.2 (unclosed.ends t ?_)
      rw [putInto,modifyType,Array.size_modify] at inside
      exact inside

/-- If no type closes a chain, the names that types give are looked up to the end, and all chains end. -/
theorem Unclosed.run (unclosed : Unclosed p b back s) (within : ∀ x ∈ back, x ∈ trees.flatMap Tree.pending)
    (distinct : (back.map PendingType.id).Nodup) (fine : ¬Closes home s back) :
    FailsOnly P ((back.forM (bindDeclaring home)).run s) ∧
      ∀ q, (back.forM (bindDeclaring home)).run s = .ok (⟨⟩,q) → Unclosed p b [] q := by
  induction back generalizing s with
  | nil =>
    refine ⟨.ok _,fun q done => ?_⟩
    obtain ⟨-,rfl⟩ := Linkage.run_pure_eq_ok.mp done
    exact unclosed
  | cons x back ih =>
    obtain ⟨new,distinct⟩ := forall_ne_of_nodup distinct
    have next {r : Program} (first : (bindDeclaring home x).run s = .ok (⟨⟩,r)) : Unclosed p b back r :=
      unclosed.step formed grove (within x (.head _)) new (fun closing => fine (.here closing)) first
    have rest {r : Program} (first : (bindDeclaring home x).run s = .ok (⟨⟩,r)) :=
      ih (next first) (fun y later => within y (.tail _ later)) distinct fun closes => fine (.later first closes)
    constructor
    · refine FailsOnly.linking_bind (bindDeclaring_reports fun t among => ?_) fun _ r first => (rest first).1
      rw [unclosed.allTypes_eq home] at among
      exact unclosed.ends t (by rw [unclosed.size_eq]; exact grove.listed.allTypes among)
    · intro q done
      obtain ⟨r,first,later⟩ := Linkage.run_forM_cons_eq_ok.mp done
      exact (rest first).2 q later

omit formed

/-- Some declaring chain comes back to where it starts. -/
structure Looped (home : ModuleId) (b : Program) (back : List PendingType) (s : Program) : Prop extends Turned b back s where
  loop : ∃ t ∈ s.allTypes home, ∃ u, (s.typeAt t).declaring = some u ∧ s.Inside u t

omit grove in
theorem Looped.endless (looped : Looped home b back s) : ∃ t ∈ s.allTypes home, s.chainEnds t = false := by
  obtain ⟨t,among,u,declaring,inside⟩ := looped.loop
  exact ⟨t,among,chainEnds_of_loop declaring inside⟩

section

variable (within : ∀ y ∈ x :: back, y ∈ trees.flatMap pending) (new : ∀ y ∈ back, y.id ≠ x.id)
include within new

theorem Closing.looped (turned : Turned b (x :: back) s) (closing : Closing home s x) :
    ∃ q, (bindDeclaring home x).run s = .ok (⟨⟩,q) ∧ Looped home b back q := by
  obtain ⟨named,outer,found,inside⟩ := closing
  have member := within x (.head _)
  have top : (s.typeAt x.id).declaring = none := by rw [turned.waiting x (.head _)]; exact grove.top member named
  have after := turned.putInto outer new
  refine ⟨_,bindDeclaring_of_found named found,after,x.id,?_,outer,?_,inside.putInto top⟩
  · rw [after.allTypes_eq home,grove.walk]
    exact mem_map_of_mem member
  · exact declaring_putInto (by rw [turned.size_eq]; exact grove.inside x member)

theorem Looped.step (looped : Looped home b (x :: back) s) : (bindDeclaring home x).run s = .error .unbounded ∨
    ∃ q, (bindDeclaring home x).run s = .ok (⟨⟩,q) ∧ Looped home b back q := by
  by_cases named : x.doc.declaring = ""
  · refine .inr ⟨s,?_,looped.skip,looped.loop⟩
    rw [bindDeclaring,if_pos (by simpa using named)]
    rfl
  · obtain ⟨t,among,endless⟩ := looped.endless
    rcases findNamed_stuck x.doc.declaring among endless with stuck | ⟨outer,found⟩
    · left
      rw [bindDeclaring,if_neg (by simpa using named),run_get_bind,stuck]
      rfl
    · right
      have top : (s.typeAt x.id).declaring = none := by
        rw [looped.waiting x (.head _)]
        exact grove.top (within x (.head _)) named
      have after := looped.toTurned.putInto outer new
      obtain ⟨t,among,u,declaring,inside⟩ := looped.loop
      refine ⟨_,bindDeclaring_of_found named found,after,t,?_,u,?_,inside.putInto top⟩
      · rw [after.allTypes_eq home,← looped.allTypes_eq home]
        exact among
      · rw [typeAt_putInto_of_ne]
        · exact declaring
        · rintro rfl
          rw [top] at declaring
          cases declaring

end

theorem Looped.run (looped : Looped home b back s) (within : ∀ x ∈ back, x ∈ trees.flatMap Tree.pending)
    (distinct : (back.map PendingType.id).Nodup) : (back.forM (bindDeclaring home)).run s = .error .unbounded ∨
      ∃ q, (back.forM (bindDeclaring home)).run s = .ok (⟨⟩,q) ∧ Looped home b [] q := by
  induction back generalizing s with
  | nil => exact .inr ⟨s,rfl,looped⟩
  | cons x back ih =>
    obtain ⟨new,distinct⟩ := forall_ne_of_nodup distinct
    rcases looped.step grove within new with stuck | ⟨r,first,after⟩
    · left
      rw [run_forM_cons,stuck]
      rfl
    · rw [run_forM_cons,first]
      exact ih after (fun y later => within y (.tail _ later)) distinct

/-- Once a chain is closed, the names of the module are not looked up or compared to the end. -/
theorem Closes.run (closes : Closes home s back) (turned : Turned b back s) (within : ∀ x ∈ back, x ∈ trees.flatMap Tree.pending)
    (distinct : (back.map PendingType.id).Nodup) : (back.forM (bindDeclaring home)).run s = .error .unbounded ∨
      ∃ q, (back.forM (bindDeclaring home)).run s = .ok (⟨⟩,q) ∧ Looped home b [] q := by
  induction closes with
  | @here s x back closing =>
    obtain ⟨new,distinct⟩ := forall_ne_of_nodup distinct
    obtain ⟨r,first,looped⟩ := closing.looped grove within new turned
    rw [run_forM_cons,first]
    exact looped.run grove (fun y later => within y (.tail _ later)) distinct
  | @later s r x back first closes ih =>
    obtain ⟨new,distinct⟩ := forall_ne_of_nodup distinct
    have after : Turned b back r := by
      rcases bindDeclaring_eq_ok first with ⟨-,rfl⟩ | ⟨-,own,outer,-,-,rfl⟩
      · exact turned.skip
      · exact turned.putInto outer new
    rw [run_forM_cons,first]
    exact ih after (fun y later => within y (.tail _ later)) distinct

end

def Declares (doc : Document) (p : Program) (references : List ModuleId) (types : List PendingType) (s : Program) : Prop :=
  doc.moduleName ≠ "" ∧ ∃ version, readVersion doc = .ok version ∧
    (declareTypes ⟨p.modules.size⟩ doc.types).run (p.addModule { name := doc.moduleName, version, references }).2 = .ok (types,s)

/-- Some type of the document is put into itself, or into a type inside it. -/
def ClosesChain (doc : Document) (p : Program) (references : List ModuleId) : Prop :=
  ∃ types s, doc.Declares p references types s ∧ Closes ⟨p.modules.size⟩ s types

theorem Declares.link_eq (declares : doc.Declares p references types s) :
    ∃ rest : Program → Except Failure (ModuleId × Program), doc.link p references =
      (types.forM (bindDeclaring ⟨p.modules.size⟩)).run s >>= fun r =>
        checkNames r.2 [] (r.2.allTypes ⟨p.modules.size⟩) >>= fun _ => rest r.2 := by
  obtain ⟨named,version,read,declared⟩ := declares
  refine ⟨fun q => (do
    let methods ← types.mapM (declareMembers ⟨p.modules.size⟩)
    methods.flatten.forM (fillBody ⟨p.modules.size⟩)
    return (⟨p.modules.size⟩ : ModuleId) : Linking ModuleId).run q,?_⟩
  rw [link,linkInto,if_neg (by simpa using named),read]
  show ((declareTypes ⟨p.modules.size⟩ doc.types).run (p.addModule { name := doc.moduleName, version, references }).2 >>= _) = _
  rw [declared]
  show ((types.forM (bindDeclaring ⟨p.modules.size⟩)).run s >>= _) = _
  refine bind_congr fun r => ?_
  obtain ⟨_,q⟩ := r
  show ((get >>= _ : Linking ModuleId)).run q = _
  rw [run_get_bind]
  cases checkNames q [] (q.allTypes ⟨p.modules.size⟩) <;> rfl

theorem Declares.grove (formed : p.WellFormed) (declares : doc.Declares p references types s) :
    ∃ b trees, b.WellFormed ∧ types = trees.flatMap pending ∧ Grove ⟨p.modules.size⟩ b s trees := by
  obtain ⟨-,version,-,declared⟩ := declares
  have base := wellFormed_addModule (m := { name := doc.moduleName, version, references }) formed rfl
  have inside : p.modules.size < (p.addModule { name := doc.moduleName, version, references }).2.modules.size := by
    simp [addModule]
  obtain ⟨roots,planted,listedIn,-⟩ := declareTypes_planted inside declared
  obtain ⟨trees,-,rfl,grown⟩ := declareTypes_trees inside declared
  have empty := congrArg ModuleDecl.types (moduleAt_addModule_new (p := p) { name := doc.moduleName, version, references })
  exact ⟨_,trees,base,rfl,grove_of_planted base.grounded base.listed empty planted listedIn grown⟩

/-- Linking ends with a module or a report, or crashes on an impossible number of generic arguments, unless the first type
    that has the name which some type gives for its declaring type, when its turn comes, is this type itself or stands inside
    it. Then linking does not end, unless two types with the same name are met before. -/
theorem link_ends_unless_closed (formed : p.WellFormed) (whole : TypeDoc.areWhole doc.types = true) :
    (¬doc.ClosesChain p references →
      (∃ home q, doc.link p references = .ok (home,q)) ∨ (∃ e, doc.link p references = .error (.error e)) ∨
        (doc.link p references = .error (.crash .length) ∧ ∃ line ∈ doc.lines, overruns line = true)) ∧
      (doc.ClosesChain p references →
        doc.link p references = .error .unbounded ∨ ∃ name, doc.link p references = .error (.link name .declaredTwice)) := by
  constructor
  · intro fine
    have only : FailsOnly (fun f => f = .crash .length ∧ ∃ line ∈ doc.lines, overruns line = true) (doc.link p references) := by
      refine link_failsOnly whole (fun line written overrun => ⟨rfl,line,written,overrun⟩)
        fun version types s named read declared => ?_
      have declares : doc.Declares p references types s := ⟨named,version,read,declared⟩
      obtain ⟨b,trees,base,rfl,grove⟩ := declares.grove formed
      obtain ⟨binding,after⟩ := grove.unclosed.run base grove (fun _ => id) grove.distinct fun closes =>
        fine ⟨_,_,declares,closes⟩
      refine ⟨binding,fun q done => ?_⟩
      have unclosed := after q done
      refine checkNames_reports fun t among => unclosed.ends t ?_
      rw [unclosed.allTypes_eq] at among
      rw [unclosed.size_eq]
      exact grove.listed.allTypes among
    cases linked : doc.link p references with
    | ok r => exact .inl ⟨r.1,r.2,rfl⟩
    | error f =>
      rcases only f linked with ⟨e,rfl⟩ | ⟨rfl,line⟩
      · exact .inr (.inl ⟨e,rfl⟩)
      · exact .inr (.inr ⟨rfl,line⟩)
  · rintro ⟨types,s,declares,closes⟩
    obtain ⟨rest,linked⟩ := declares.link_eq
    obtain ⟨b,trees,-,rfl,grove⟩ := declares.grove formed
    rw [linked]
    rcases closes.run grove grove.unclosed.toTurned (fun _ => id) grove.distinct with stuck | ⟨q,done,looped⟩
    · rw [stuck]
      exact .inl rfl
    · obtain ⟨t,among,endless⟩ := looped.endless
      rw [done]
      rcases checkNames_stuck [] among endless with stuck | ⟨name,twice⟩
      · left
        show (checkNames q [] (q.allTypes _) >>= _) = _
        rw [stuck]
        rfl
      · right
        refine ⟨name,?_⟩
        show (checkNames q [] (q.allTypes _) >>= _) = _
        rw [twice]
        rfl

/-- Two types that are put into each other: the second into the first by the name that it gets there. -/
def twins : Document :=
  { moduleName := "Twins"
    types := [some { name := "Castor", declaring := "Pollux" },some { name := "Pollux", declaring := "Pollux/Castor" }] }

def isEndless (r : Except Failure (ModuleId × Program)) : Bool :=
  match r with
  | .error .unbounded => true
  | _ => false

theorem link_ends_unless_closed_twins : twins.link Program.core [CoreLibrary.home] = .error .unbounded ∧
    twins.ClosesChain Program.core [CoreLibrary.home] := by
  have evaluated : isEndless (twins.link Program.core [CoreLibrary.home]) = true := by decide +kernel
  have endless : twins.link Program.core [CoreLibrary.home] = .error .unbounded := by
    unfold isEndless at evaluated
    split at evaluated
    · assumption
    · cases evaluated
  refine ⟨endless,?_⟩
  by_contra fine
  have ends := (link_ends_unless_closed Program.core_wellFormed rfl).1 fine
  rw [endless] at ends
  rcases ends with ⟨home,q,same⟩ | ⟨e,same⟩ | ⟨same,-⟩ <;> cases same

end Document
end Loom
