import Loom.Proofs.Binding
import Loom.Proofs.Titles

/-!
Moving top-level types into the types that they name. A lookup that can find no type that is moved finds what it would
have found before any move. Then the order of the moves does not matter: every tree stands in the end where its document
puts it.
-/
namespace Loom

open Linkage List Program
open TypeDoc (Seat)

variable {pending : List PendingType} {seats : List Seat} {t : TypeId}

/-- Where a top-level type is put: into the type that it names, if it names one. -/
def TypeDoc.place (doc : TypeDoc) : Option String := if doc.declaring = "" then none else some doc.declaring

namespace Document

variable {home : ModuleId} {p b s q : Program} {trees : List Tree} {tree : Tree} {front : List PendingType} {x : PendingType}

/-- The types of a document are declared, and none is moved yet. -/
structure Grove (home : ModuleId) (p b : Program) (trees : List Tree) : Prop where
  grounded : p.Grounded
  kept : Keeps TypeDecl.header p b
  listed : b.Listed
  grown : ∀ tree ∈ trees, tree.Grown b
  blank : ∀ x ∈ trees.flatMap Tree.pending, Blank home b x
  inside : ∀ x ∈ trees.flatMap Tree.pending, x.id.index < b.types.size
  covered : ∀ t : TypeId, t.index < b.types.size → t.index < p.types.size ∨ ∃ x ∈ trees.flatMap Tree.pending, x.id = t
  new : ∀ x ∈ trees.flatMap Tree.pending, p.types.size ≤ x.id.index
  distinct : ((trees.flatMap Tree.pending).map PendingType.id).Nodup
  walk : b.allTypes home = (trees.flatMap Tree.pending).map PendingType.id
  listedIn : ∃ roots, ListedIn home p b roots

theorem grove_of_planted {roots : List TypeId} (grounded : p.Grounded) (listed : p.Listed) (empty : (p.moduleAt home).types = [])
    (planted : Planted home none p { b with modules := p.modules } (trees.flatMap Tree.pending) roots)
    (listedIn : ListedIn home p b roots) (grown : ∀ tree ∈ trees, tree.Grown b) : Grove home p b trees where
  grounded := grounded
  kept := ⟨planted.size_le,fun t inside => congrArg TypeDecl.header (planted.kept t inside (by simp))⟩
  listed := planted.listed listedIn listed
  grown := grown
  blank x among :=
    have blank := planted.blank x among
    ⟨blank.blank,blank.space,blank.name,blank.named,blank.flags,blank.generics,blank.home_eq,blank.nested,
      blank.distinct,blank.declaring⟩
  inside x among := (planted.mem_ids among).2
  covered t inside := by
    by_cases old : t.index < p.types.size
    · exact .inl old
    · have among : t ∈ (trees.flatMap Tree.pending).map PendingType.id := by
        rw [planted.ids,mem_map]
        exact ⟨t.index,by rw [mem_range'_1,← planted.size_eq]; exact ⟨Nat.le_of_not_lt old,inside⟩,rfl⟩
      exact .inr (mem_map.mp among)
  new x among := (planted.mem_ids among).1
  distinct := by
    rw [planted.ids]
    exact Nodup.map (fun _ _ same => congrArg TypeId.index same) nodup_range'
  walk := by
    rw [allTypes,listedIn.here,empty,nil_append]
    refine planted.walk b (fun _ _ _ => rfl) _ ?_
    rw [show b.types.size = p.types.size + (trees.flatMap Tree.pending).length from planted.size_eq]
    exact Nat.le_add_left _ _
  listedIn := ⟨roots,listedIn⟩

/-- No type is to be put into one that is moved itself, by its name before or after. -/
def Calm (trees : List Tree) : Prop :=
  ∀ tree ∈ trees, ∀ other ∈ trees, tree.doc.declaring ≠ "" → other.doc.declaring ≠ "" →
    (∀ e ∈ tree.doc.seats none, e.full ≠ other.doc.declaring) ∧
      ∀ e ∈ tree.doc.seats (some tree.doc.declaring), e.full ≠ other.doc.declaring

/-- The types in front that name a declaring type are moved into what that name found at first. -/
structure Moved (home : ModuleId) (b : Program) (front : List PendingType) (s : Program) : Prop where
  code_eq : s.code = b.code
  modules_eq : s.modules = b.modules
  size_eq : s.types.size = b.types.size
  kept : ∀ t, (∀ x ∈ front, x.id = t → x.doc.declaring = "") → s.typeAt t = b.typeAt t
  moved : ∀ x ∈ front, x.doc.declaring ≠ "" → ∃ outer, b.findType? home x.doc.declaring = some outer ∧
    s.typeAt x.id = { b.typeAt x.id with declaring := some outer }

theorem Moved.start (home : ModuleId) (b : Program) : Moved home b [] b := ⟨rfl,rfl,rfl,fun _ _ => rfl,by simp⟩

theorem Moved.typeAt_eq (moved : Moved home b front s) (t : TypeId) :
    ∃ declaring, s.typeAt t = { b.typeAt t with declaring } := by
  by_cases named : ∃ x ∈ front, x.id = t ∧ x.doc.declaring ≠ ""
  · obtain ⟨x,among,rfl,named⟩ := named
    obtain ⟨outer,-,same⟩ := moved.moved x among named
    exact ⟨_,same⟩
  · refine ⟨(b.typeAt t).declaring,moved.kept t fun x among id => ?_⟩
    by_contra declaring
    exact named ⟨x,among,id,declaring⟩

theorem Moved.allTypes_eq (moved : Moved home b front s) (h : ModuleId) : s.allTypes h = b.allTypes h := by
  refine allTypes_of_nested moved.size_eq (fun t => ?_) moved.modules_eq h
  obtain ⟨declaring,same⟩ := moved.typeAt_eq t
  rw [same]

section

variable (grove : Grove home p b trees) (within : ∀ x ∈ front, x ∈ trees.flatMap Tree.pending) (moved : Moved home b front s)
include grove within moved

theorem Moved.keeps : Keeps TypeDecl.header p s := by
  refine ⟨by rw [moved.size_eq]; exact grove.kept.size_le,fun t old => ?_⟩
  rw [moved.kept t,grove.kept.view_eq t old]
  rintro x among rfl
  exact absurd old (Nat.not_lt_of_le (grove.new x (within x among)))

theorem Moved.rest_eq (member : tree ∈ trees) : ∀ x ∈ tree.rest, s.typeAt x.id = b.typeAt x.id := by
  intro x among
  refine moved.kept x.id fun y early same => ?_
  have here : x ∈ trees.flatMap Tree.pending := mem_flatMap.mpr ⟨tree,member,.tail _ among⟩
  obtain rfl : y = x := inj_on_of_nodup_map grove.distinct (within y early) here same
  exact (grove.grown tree member).plain y among

theorem Moved.stands (member : tree ∈ trees) (ends : s.chainEnds tree.root = true) {outer : Option String}
    (around : (s.typeAt tree.root).declaring.map s.fullName = outer) :
    (∀ x ∈ tree.pending, s.chainEnds x.id = true) ∧ Forall₂ (Titled s) tree.pending (tree.doc.seats outer) := by
  have grown := grove.grown tree member
  have inner : ∀ x ∈ tree.rest, (s.typeAt x.id).declaring = (b.typeAt x.id).declaring := fun x among => by
    rw [moved.rest_eq grove within member x among]
  have chains := grown.ends inner ends
  refine ⟨chains,grown.titled s outer (fun x among => ⟨chains x among,?_,?_⟩) inner around⟩
  · obtain ⟨declaring,same⟩ := moved.typeAt_eq x.id
    rw [same]
    exact (grove.blank x (mem_flatMap.mpr ⟨tree,member,among⟩)).space
  · obtain ⟨declaring,same⟩ := moved.typeAt_eq x.id
    rw [same]
    exact (grove.blank x (mem_flatMap.mpr ⟨tree,member,among⟩)).name

theorem Moved.stands_top (member : tree ∈ trees) (still : ∀ x ∈ front, x.id = tree.root → x.doc.declaring = "") :
    (∀ x ∈ tree.pending, s.chainEnds x.id = true) ∧ Forall₂ (Titled s) tree.pending (tree.doc.seats none) := by
  have top : (s.typeAt tree.root).declaring = none := by
    rw [moved.kept tree.root still]
    exact (grove.grown tree member).top
  refine moved.stands grove within member ?_ (by rw [top]; rfl)
  rw [chainEnds,chainEndsWithin,top]

end

theorem Grove.mem (grove : Grove home p b trees) (member : tree ∈ trees) (among : x ∈ trees.flatMap Tree.pending)
    (root : x.id = tree.root) : x = ⟨tree.doc,tree.root⟩ :=
  inj_on_of_nodup_map grove.distinct among (mem_flatMap.mpr ⟨tree,member,.head _⟩) root

theorem Grove.next (grove : Grove home p b trees) {back : List PendingType}
    (split : trees.flatMap Tree.pending = front ++ x :: back) :
    (∀ y ∈ front, y ∈ trees.flatMap Tree.pending) ∧ x ∈ trees.flatMap Tree.pending ∧ x ∉ front := by
  have distinct := grove.distinct.of_map
  rw [split] at distinct ⊢
  exact ⟨fun y early => mem_append_left _ early,by simp,
    fun early => (disjoint_of_nodup_append distinct) early (.head _)⟩

theorem fullName_eq_of_titled {r : Program}
    (first : Forall₂ (Titled s) pending seats) (second : Forall₂ (Titled r) pending seats) :
    ∀ x ∈ pending, s.fullName x.id = r.fullName x.id := by
  have names : pending.map (fun x => s.fullName x.id) = pending.map fun x => r.fullName x.id := by
    rw [← map_eq_of_forall₂ (g := Seat.full) (first.imp fun _ _ titled => titled.full.symm),
      ← map_eq_of_forall₂ (g := Seat.full) (second.imp fun _ _ titled => titled.full.symm)]
  exact map_inj_left.mp names

theorem findNamed_eq_find? (name : String) {ts : List TypeId} (ends : ∀ t ∈ ts, s.chainEnds t = true) :
    findNamed s name ts = .ok (ts.find? fun t => s.fullName t == name) := by
  induction ts with
  | nil => rfl
  | cons t rest ih =>
    rw [findNamed,if_neg (by simp [ends t (.head _)]),find?_cons]
    cases s.fullName t == name with
    | true => rfl
    | false => exact ih fun u among => ends u (.tail _ among)

/-- The type is not moved: it was there before, or it stands in a tree whose root names no declaring type. -/
def Still (p : Program) (trees : List Tree) (t : TypeId) : Prop :=
  t.index < p.types.size ∨ ∃ tree ∈ trees, tree.doc.declaring = "" ∧ ∃ x ∈ tree.pending, x.id = t

section

variable (grove : Grove home p b trees) (calm : Calm trees)
include grove calm

theorem Grove.still_of_findType? (member : tree ∈ trees) (named : tree.doc.declaring ≠ "") {outer : TypeId}
    (found : b.findType? home tree.doc.declaring = some outer) : Still p trees outer := by
  have inside := (offered_of_findType? found).inside grove.listed
  rcases grove.covered outer inside with old | ⟨x,among,rfl⟩
  · exact .inl old
  · obtain ⟨other,grown,here⟩ := mem_flatMap.mp among
    by_cases plain : other.doc.declaring = ""
    · exact .inr ⟨other,grown,plain,x,here,rfl⟩
    · obtain ⟨-,titled⟩ := (Moved.start home b).stands_top grove (by simp) grown (by simp)
      obtain ⟨e,seat,stands⟩ := right_of_forall₂ titled here
      refine absurd ?_ ((calm other grown tree member plain named).1 e seat)
      rw [← stands.full]
      exact fullName_of_findType? found

variable (within : ∀ x ∈ front, x ∈ trees.flatMap Tree.pending) (moved : Moved home b front s)
include within moved

omit calm in
theorem Moved.still (still : Still p trees t) : s.chainEnds t = true ∧ s.fullName t = b.fullName t := by
  rcases still with old | ⟨tree,member,plain,x,among,rfl⟩
  · have kept := moved.keeps grove within
    exact ⟨kept.chainEnds grove.grounded old,
      by rw [kept.fullName_eq grove.grounded old,grove.kept.fullName_eq grove.grounded old]⟩
  · obtain ⟨chains,titled⟩ := moved.stands_top grove within member fun y early root => by
      rw [grove.mem member (within y early) root]
      exact plain
    obtain ⟨-,before⟩ := (Moved.start home b).stands_top grove (by simp) member (by simp)
    exact ⟨chains x among,fullName_eq_of_titled titled before x among⟩

/-- Each tree stands at the top level or, after its move, where its document puts it. -/
theorem Moved.standing (member : tree ∈ trees) :
    (∀ x ∈ tree.pending, s.chainEnds x.id = true) ∧ ∃ outer, Forall₂ (Titled s) tree.pending (tree.doc.seats outer) ∧
      (outer = none ∨ tree.doc.declaring ≠ "" ∧ outer = some tree.doc.declaring) ∧
      (⟨tree.doc,tree.root⟩ ∈ front → outer = tree.doc.place) := by
  by_cases gone : ⟨tree.doc,tree.root⟩ ∈ front ∧ tree.doc.declaring ≠ ""
  · obtain ⟨early,named⟩ := gone
    obtain ⟨outer,found,here⟩ := moved.moved _ early named
    obtain ⟨ends,name⟩ := moved.still grove within (grove.still_of_findType? calm member named found)
    rw [fullName_of_findType? found] at name
    have declaring : (s.typeAt tree.root).declaring = some outer := by rw [here]
    have root : s.chainEnds tree.root = true := by
      refine chainEnds_of_within (n := s.types.size + 1 + 1) ?_
      rw [chainEndsWithin,declaring]
      exact ends
    have around : (s.typeAt tree.root).declaring.map s.fullName = some tree.doc.declaring := by
      rw [declaring,Option.map_some,name]
    obtain ⟨chains,titled⟩ := moved.stands grove within member root around
    exact ⟨chains,_,titled,.inr ⟨named,rfl⟩,fun _ => by rw [TypeDoc.place,if_neg named]⟩
  · obtain ⟨chains,titled⟩ := moved.stands_top grove within member fun x early root => by
      obtain rfl := grove.mem member (within x early) root
      by_contra named
      exact gone ⟨early,named⟩
    refine ⟨chains,none,titled,.inl rfl,fun early => ?_⟩
    have plain : tree.doc.declaring = "" := by
      by_contra named
      exact gone ⟨early,named⟩
    rw [TypeDoc.place,if_pos plain]

theorem Moved.chainEnds (inside : t.index < s.types.size) : s.chainEnds t = true := by
  rw [moved.size_eq] at inside
  rcases grove.covered t inside with old | ⟨x,among,rfl⟩
  · exact (moved.keeps grove within).chainEnds grove.grounded old
  · obtain ⟨tree,member,here⟩ := mem_flatMap.mp among
    exact (moved.standing grove calm within member).1 x here

theorem Moved.named_iff (member : tree ∈ trees) (named : tree.doc.declaring ≠ "") (inside : t.index < s.types.size) :
    s.fullName t = tree.doc.declaring ↔ b.fullName t = tree.doc.declaring := by
  rw [moved.size_eq] at inside
  rcases grove.covered t inside with old | ⟨x,among,rfl⟩
  · rw [(moved.still grove within (.inl old)).2]
  · obtain ⟨other,grown,here⟩ := mem_flatMap.mp among
    by_cases plain : other.doc.declaring = ""
    · rw [(moved.still grove within (.inr ⟨other,grown,plain,x,here,rfl⟩)).2]
    · obtain ⟨before,after⟩ := calm other grown tree member plain named
      obtain ⟨-,first⟩ := (Moved.start home b).stands_top grove (by simp) grown (by simp)
      obtain ⟨-,outer,second,place,-⟩ := moved.standing grove calm within grown
      obtain ⟨e,seat,stands⟩ := right_of_forall₂ first here
      obtain ⟨f,later,follows⟩ := right_of_forall₂ second here
      have apart : f.full ≠ tree.doc.declaring := by
        rcases place with rfl | ⟨-,rfl⟩
        · exact before f later
        · exact after f later
      rw [stands.full,follows.full]
      exact iff_of_false apart (before e seat)

theorem Moved.findType?_eq (member : tree ∈ trees) (named : tree.doc.declaring ≠ "") :
    s.findType? home tree.doc.declaring = b.findType? home tree.doc.declaring := by
  have own (h : ModuleId) : s.findOwnType? h tree.doc.declaring = b.findOwnType? h tree.doc.declaring := by
    rw [findOwnType?,findOwnType?,moved.allTypes_eq]
    refine find?_congr fun t among => ?_
    have inside : t.index < s.types.size := by
      rw [moved.size_eq]
      exact grove.listed.allTypes among
    rw [Bool.eq_iff_iff,beq_iff_eq,beq_iff_eq]
    exact moved.named_iff grove calm within member named inside
  have modules : s.moduleAt home = b.moduleAt home := by rw [moduleAt,moved.modules_eq]; rfl
  rw [findType?,findType?,own,funext own,modules]

theorem Moved.step_iff (member : tree ∈ trees) (among : x ∈ tree.pending) :
    (bindDeclaring home x).run s = .ok (⟨⟩,q) ↔ (x.doc.declaring = "" ∧ q = s) ∨ (x.doc.declaring ≠ "" ∧
      ∃ outer, b.findType? home x.doc.declaring = some outer ∧
        q = s.modifyType x.id fun d => { d with declaring := some outer }) := by
  rw [bindDeclaring]
  by_cases plain : x.doc.declaring = ""
  · rw [if_pos (by simpa using plain),run_pure_eq_ok]
    simp [plain,eq_comm]
  · obtain rfl : x = ⟨tree.doc,tree.root⟩ := by
      rcases mem_cons.mp among with root | below
      · exact root
      · exact absurd ((grove.grown tree member).plain x below) plain
    have lookup := moved.findType?_eq grove calm within member plain
    have ends : ∀ t ∈ s.allTypes home, s.chainEnds t = true := fun t among => by
      rw [moved.allTypes_eq] at among
      exact moved.chainEnds grove calm within (by rw [moved.size_eq]; exact grove.listed.allTypes among)
    have own := findNamed_eq_find? tree.doc.declaring ends
    have found : ((s.allTypes home).find? fun t => s.fullName t == tree.doc.declaring).or
        ((s.moduleAt home).references.findSome? (s.findOwnType? · tree.doc.declaring)) =
          b.findType? home tree.doc.declaring := lookup
    rw [if_neg (by simpa using plain),run_get_bind,run_lift_bind_eq_ok]
    simp only [own,Except.ok.injEq,exists_eq_left',found]
    split
    · next outer here =>
      rw [run_modify_eq_ok]
      simp [plain,here,eq_comm]
    · next none => exact iff_of_false run_throw_ne_ok (by simp [plain,none])

end

theorem Moved.add (grove : Grove home p b trees) (among : x ∈ trees.flatMap Tree.pending)
    (within : ∀ y ∈ front, y ∈ trees.flatMap Tree.pending) (new : x ∉ front) (moved : Moved home b front s)
    (step : (x.doc.declaring = "" ∧ q = s) ∨ (x.doc.declaring ≠ "" ∧ ∃ outer, b.findType? home x.doc.declaring = some outer ∧
      q = s.modifyType x.id fun d => { d with declaring := some outer })) : Moved home b (front ++ [x]) q := by
  rcases step with ⟨plain,rfl⟩ | ⟨named,outer,found,rfl⟩
  · refine ⟨moved.code_eq,moved.modules_eq,moved.size_eq,fun t still => moved.kept t fun y early => ?_,
      fun y early named => ?_⟩
    · exact still y (mem_append_left _ early)
    · rcases mem_append.mp early with before | last
      · exact moved.moved y before named
      · rw [mem_singleton.mp last] at named
        exact absurd plain named
  · have here : x.id.index < s.types.size := by rw [moved.size_eq]; exact grove.inside x among
    have apart {y : PendingType} (early : y ∈ front) : y.id ≠ x.id := fun same =>
      new (inj_on_of_nodup_map grove.distinct (within y early) among same ▸ early)
    have same : s.typeAt x.id = b.typeAt x.id := moved.kept x.id fun y early id => absurd id (apart early)
    refine ⟨moved.code_eq,moved.modules_eq,by rw [← moved.size_eq]; simp,fun t still => ?_,fun y early named => ?_⟩
    · have different : t ≠ x.id := fun id => named (still x (by simp) id.symm)
      rw [typeAt_modifyType_of_ne different]
      exact moved.kept t fun y early => still y (mem_append_left _ early)
    · rcases mem_append.mp early with before | last
      · rw [typeAt_modifyType_of_ne (apart before)]
        exact moved.moved y before named
      · rw [mem_singleton.mp last]
        exact ⟨outer,found,by rw [typeAt_modifyType_self here,same]⟩

section

variable (grove : Grove home p b trees) (calm : Calm trees)
include grove calm

theorem moved_of_run (done : ((trees.flatMap Tree.pending).forM (bindDeclaring home)).run b = .ok (⟨⟩,q)) :
    Moved home b (trees.flatMap Tree.pending) q := by
  have later : ∀ (back front : List PendingType) (s : Program), trees.flatMap Tree.pending = front ++ back →
      Moved home b front s → (back.forM (bindDeclaring home)).run s = .ok (⟨⟩,q) →
      Moved home b (trees.flatMap Tree.pending) q := by
    intro back
    induction back with
    | nil =>
      intro front s split moved done
      obtain ⟨-,rfl⟩ := Linkage.run_pure_eq_ok.mp done
      rw [split,append_nil]
      exact moved
    | cons x back ih =>
      intro front s split moved done
      obtain ⟨s',first,rest⟩ := Linkage.run_forM_cons_eq_ok.mp done
      obtain ⟨within,among,new⟩ := grove.next split
      obtain ⟨tree,member,here⟩ := mem_flatMap.mp among
      exact ih (front ++ [x]) s' (by rw [split]; simp)
        (moved.add grove among within new ((moved.step_iff grove calm within member here).mp first)) rest
  exact later _ [] b rfl (.start home b) done

theorem exists_moved (each : ∀ tree ∈ trees, tree.doc.declaring ≠ "" → (b.findType? home tree.doc.declaring).isSome = true) :
    ∃ q, ((trees.flatMap Tree.pending).forM (bindDeclaring home)).run b = .ok (⟨⟩,q) := by
  obtain ⟨q,run,-⟩ := Linkage.forM_runs (f := bindDeclaring home) (s := b)
    (I := fun front s => Moved home b front s) (trees.flatMap Tree.pending)
    (fun front x back s split moved => by
      obtain ⟨within,among,new⟩ := grove.next split
      obtain ⟨tree,member,here⟩ := mem_flatMap.mp among
      have step : ∃ q, (x.doc.declaring = "" ∧ q = s) ∨ (x.doc.declaring ≠ "" ∧
          ∃ outer, b.findType? home x.doc.declaring = some outer ∧
            q = s.modifyType x.id fun d => { d with declaring := some outer }) := by
        by_cases plain : x.doc.declaring = ""
        · exact ⟨s,.inl ⟨plain,rfl⟩⟩
        · have root : x = ⟨tree.doc,tree.root⟩ :=
            (mem_cons.mp here).resolve_right fun below => plain ((grove.grown tree member).plain x below)
          obtain ⟨outer,found⟩ := Option.isSome_iff_exists.mp (each tree member (by rw [root] at plain; exact plain))
          exact ⟨_,.inr ⟨plain,outer,by rw [root]; exact found,rfl⟩⟩
      obtain ⟨q,step⟩ := step
      exact ⟨q,(moved.step_iff grove calm within member here).mpr step,moved.add grove among within new step⟩)
    (.start home b)
  exact ⟨q,run⟩

end

theorem titled_flatMap {seats : Tree → List Seat}
    (each : ∀ tree ∈ trees, Forall₂ (Titled s) tree.pending (seats tree)) :
    Forall₂ (Titled s) (trees.flatMap Tree.pending) (trees.flatMap seats) := by
  refine rel_flatMap (R := fun first second => first = second ∧ first ∈ trees)
    (forall₂_same.mpr fun tree member => ⟨rfl,member⟩) ?_
  rintro tree _ ⟨rfl,member⟩
  exact each tree member

theorem Grove.titled (grove : Grove home p b trees) :
    Forall₂ (Titled b) (trees.flatMap Tree.pending) (trees.flatMap fun tree => tree.doc.seats none) :=
  titled_flatMap fun _ member => ((Moved.start home b).stands_top grove (by simp) member (by simp)).2

theorem Moved.titled (grove : Grove home p b trees) (calm : Calm trees) (moved : Moved home b (trees.flatMap Tree.pending) s) :
    Forall₂ (Titled s) (trees.flatMap Tree.pending) (trees.flatMap fun tree => tree.doc.seats tree.doc.place) := by
  refine titled_flatMap fun tree member => ?_
  obtain ⟨-,outer,titled,-,place⟩ := moved.standing grove calm (fun _ => id) member
  rw [← place (mem_flatMap.mpr ⟨tree,member,.head _⟩)]
  exact titled

end Document
end Loom
