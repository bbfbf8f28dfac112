import Loom.Proofs.Arrangement
import Loom.Proofs.Listings

/-!
The order of the types of a document. Types are moved in the order in which the document lists them, so a type that
names one which is itself moved may be refused in one order and accepted in another. Where no type names such a one, the
order does not matter.
-/
namespace Loom

open Document.PendingType List
open Program (Agree Kin Kindred Keeps ListedIn TwinTypes TwinMethods core)
open TypeDoc (Seat place)

namespace Document

def movers (docs : List (Option TypeDoc)) : List TypeDoc := (docs.filterMap id).filter fun d => d.declaring ≠ ""

/-- The types of a document, with each top-level type in the given place. -/
def laidOut (place : TypeDoc → Option String) (docs : List (Option TypeDoc)) : List Seat :=
  (docs.filterMap id).flatMap fun d => d.seats (place d)

/-- No type names one that is itself moved, by its name before or after the move. -/
def Fixed (docs : List (Option TypeDoc)) : Prop :=
  ∀ d ∈ movers docs, ∀ other ∈ movers docs, ∀ e ∈ d.seats none ++ d.seats (some d.declaring), e.full ≠ other.declaring

instance (docs : List (Option TypeDoc)) : Decidable (Fixed docs) :=
  inferInstanceAs (Decidable (∀ d ∈ movers docs, ∀ other ∈ movers docs,
    ∀ e ∈ d.seats none ++ d.seats (some d.declaring), e.full ≠ other.declaring))

variable {home : ModuleId} {p b s q : Program} {docs docs' : List (Option TypeDoc)} {pending : List PendingType}

theorem mem_movers {d : TypeDoc} : d ∈ movers docs ↔ some d ∈ docs ∧ d.declaring ≠ "" := by
  simp [movers]

theorem Fixed.perm (fixed : Fixed docs) (same : docs'.Perm docs) : Fixed docs' := by
  intro d first other second
  rw [mem_movers,same.mem_iff,← mem_movers] at first second
  exact fixed d first other second

theorem laidOut_perm (place : TypeDoc → Option String) (same : docs'.Perm docs) :
    (laidOut place docs').Perm (laidOut place docs) :=
  (same.filterMap id).flatMap_right _

theorem laidOut_trees (place : TypeDoc → Option String) (trees : List Tree) :
    laidOut place (trees.map fun tree => some tree.doc) = trees.flatMap fun tree => tree.doc.seats (place tree.doc) := by
  rw [laidOut,filterMap_map]
  simp [flatMap_map]

theorem Fixed.calm {trees : List Tree} (fixed : Fixed (trees.map fun tree => some tree.doc)) : Calm trees := by
  intro tree member other member' named named'
  have mover {tree : Tree} (member : tree ∈ trees) (named : tree.doc.declaring ≠ "") :
      tree.doc ∈ movers (trees.map fun tree => some tree.doc) :=
    mem_movers.mpr ⟨mem_map.mpr ⟨tree,member,rfl⟩,named⟩
  have apart := fixed tree.doc (mover member named) other.doc (mover member' named')
  exact ⟨fun e seat => apart e (mem_append_left _ seat),fun e seat => apart e (mem_append_right _ seat)⟩

section

variable (formed : p.WellFormed) (empty : (p.moduleAt home).types = []) (inside : home.index < p.modules.size)
  (fixed : Fixed docs) (declared : (declareTypes home docs).run p = .ok (pending,b))
include formed empty inside fixed declared

theorem exists_grove : ∃ trees roots, docs = trees.map (fun tree => some tree.doc) ∧ pending = trees.flatMap Tree.pending ∧
    Grove home p b trees ∧ Calm trees ∧ Planted home none p { b with modules := p.modules } pending roots ∧
    ListedIn home p b roots ∧ ∀ x ∈ pending, x.doc.declaring ≠ "" → x.id ∈ roots := by
  obtain ⟨roots,planted,listedIn,named⟩ := declareTypes_planted inside declared
  obtain ⟨trees,rfl,rfl,grown⟩ := declareTypes_trees inside declared
  exact ⟨trees,roots,rfl,rfl,grove_of_planted formed.grounded formed.listed empty planted listedIn grown,fixed.calm,
    planted,listedIn,named⟩

/-- The types of a fixed document can be moved exactly if each finds what it names before any move. -/
theorem bindDeclaring_iff : (∃ s, (pending.forM (bindDeclaring home)).run b = .ok (⟨⟩,s)) ↔ ∀ d ∈ movers docs,
    (∃ e ∈ laidOut (fun _ => none) docs, e.full = d.declaring) ∨ (p.foreign? home d.declaring).isSome = true := by
  obtain ⟨trees,roots,rfl,rfl,grove,calm,-,-,-⟩ := exists_grove formed empty inside fixed declared
  have seated : Seated home p b (trees.flatMap Tree.pending) (laidOut (fun _ => none) (trees.map fun tree => some tree.doc)) :=
    ⟨grove.kept,grove.listedIn,grove.walk,grove.blank,by rw [laidOut_trees]; exact grove.titled⟩
  simp only [← seated.isSome_findType? formed]
  constructor
  · rintro ⟨s,run⟩ d mover
    obtain ⟨listed,named⟩ := mem_movers.mp mover
    obtain ⟨tree,member,⟨⟩⟩ := mem_map.mp listed
    obtain ⟨outer,found,-⟩ := (moved_of_run grove calm run).moved _ (mem_flatMap.mpr ⟨tree,member,.head _⟩) named
    exact Option.isSome_iff_exists.mpr ⟨outer,found⟩
  · intro each
    exact exists_moved grove calm fun tree member named =>
      each tree.doc (mem_movers.mpr ⟨mem_map.mpr ⟨tree,member,rfl⟩,named⟩)

variable (bound : (pending.forM (bindDeclaring home)).run b = .ok (⟨⟩,s))
include bound

theorem checkNames_iff : checkNames s [] (s.allTypes home) = .ok () ↔ ((laidOut place docs).map Seat.full).Nodup := by
  obtain ⟨trees,roots,rfl,rfl,grove,calm,-,-,-⟩ := exists_grove formed empty inside fixed declared
  have moved := moved_of_run grove calm bound
  have walk : s.allTypes home = (trees.flatMap Tree.pending).map PendingType.id := by rw [moved.allTypes_eq,grove.walk]
  have names : (laidOut place (trees.map fun tree => some tree.doc)).map Seat.full = (s.allTypes home).map s.fullName := by
    rw [laidOut_trees,walk,map_map]
    exact map_eq_of_forall₂ ((moved.titled grove calm).imp fun _ _ titled => titled.full.symm)
  rw [names]
  refine ⟨fun checked => (checkNames_nodup checked).1,fun distinct => checkNames_ok (fun t among => ?_) distinct (by simp)⟩
  rw [moved.allTypes_eq] at among
  exact moved.chainEnds grove calm (fun _ => id) (by rw [moved.size_eq]; exact grove.listed.allTypes among)

theorem seated_of_run (checked : checkNames s [] (s.allTypes home) = .ok ()) :
    Sketched home p s pending ∧ Seated home p s pending (laidOut place docs) := by
  obtain ⟨trees,roots,rfl,rfl,grove,calm,planted,listedIn,named⟩ := exists_grove formed empty inside fixed declared
  have moved := moved_of_run grove calm bound
  have sketched := sketched_of_planted formed.listed formed.grounded empty planted listedIn named
    (bindDeclaring_all bound) checked
  refine ⟨sketched,sketched.grown.headers,sketched.listedIn,sketched.walk,sketched.blank,?_⟩
  rw [laidOut_trees]
  exact moved.titled grove calm

end

/-- The types of a fixed document are seated in the same way in any order. -/
theorem exists_seated (formed : p.WellFormed) (empty : (p.moduleAt home).types = []) (inside : home.index < p.modules.size)
    (fixed : Fixed docs) (same : docs'.Perm docs) (declared : (declareTypes home docs).run p = .ok (pending,b))
    (bound : (pending.forM (bindDeclaring home)).run b = .ok (⟨⟩,s)) (checked : checkNames s [] (s.allTypes home) = .ok ()) :
    ∃ pending' b' s', (declareTypes home docs').run p = .ok (pending',b') ∧
      (pending'.forM (bindDeclaring home)).run b' = .ok (⟨⟩,s') ∧ checkNames s' [] (s'.allTypes home) = .ok () ∧
      Sketched home p s' pending' ∧ Seated home p s' pending' (laidOut place docs') := by
  have again : ∀ doc ∈ docs', doc ∈ docs := fun doc => same.mem_iff.mp
  obtain ⟨⟨pending',b'⟩,declared'⟩ := declareTypes_again again declared p
  have fixed' := fixed.perm same
  have named := (bindDeclaring_iff formed empty inside fixed declared).mp ⟨s,bound⟩
  obtain ⟨s',bound'⟩ := (bindDeclaring_iff formed empty inside fixed' declared').mpr fun d mover => by
    rw [mem_movers,same.mem_iff,← mem_movers] at mover
    simp only [(laidOut_perm _ same).mem_iff]
    exact named d mover
  have distinct := (checkNames_iff formed empty inside fixed declared bound).mp checked
  have checked' := (checkNames_iff formed empty inside fixed' declared' bound').mpr
    (((laidOut_perm _ same).map Seat.full).nodup_iff.mpr distinct)
  obtain ⟨sketched',seated'⟩ := seated_of_run formed empty inside fixed' declared' bound' checked'
  exact ⟨pending',b',s',declared',bound',checked',sketched',seated'⟩

section

variable {s' : Program} {types types' : List PendingType} {seats seats' : List Seat}

/-- What the documents of types tell in one arrangement they tell in the other. -/
theorem exists_populated_again (formed : p.WellFormed) (seated : Seated home p s types seats)
    (sketched' : Sketched home p s' types') (seated' : Seated home p s' types' seats') (same : seats'.Perm seats)
    (distinct : (seats.map Seat.full).Nodup) (populated : Populated s home types b) :
    ∃ b', (types'.mapM (declareMembers home)).run s' = .ok (types'.map methods,b') := by
  have kin := kin_of_seated formed seated seated' same distinct
  refine exists_populated sketched'.blank_methods sketched'.nodup_ids fun y among => ?_
  obtain ⟨e,member,titled'⟩ := right_of_forall₂ seated'.titled among
  obtain ⟨x,here,titled⟩ := seated.exists_pending (same.mem_iff.mp member)
  obtain ⟨d,tells,-⟩ := tells_alike kin (titled'.doc.symm.trans titled.doc)
    (headersAlike_of_titled titled titled' (seated.blank x here) (seated'.blank y among)) (populated.told x here)
  exact ⟨d,tells⟩

end

theorem Seated.map_fullName {types : List PendingType} {seats : List Seat} (seated : Seated home p s types seats) :
    (s.allTypes home).map s.fullName = seats.map Seat.full := by
  rw [seated.walk,map_map]
  exact (map_eq_of_forall₂ (seated.titled.imp fun _ _ titled => titled.full.symm)).symm

/-- Two programs have the same types, seated in the same way, with the members that their documents give them. -/
structure Twinned (home : ModuleId) (p s s' b b' : Program) (types types' : List PendingType) (seats seats' : List Seat) :
    Prop where
  sketched : Sketched home p s types
  sketched' : Sketched home p s' types'
  seated : Seated home p s types seats
  seated' : Seated home p s' types' seats'
  same : seats'.Perm seats
  distinct : (seats.map Seat.full).Nodup
  populated : Populated s home types b
  populated' : Populated s' home types' b'

section

variable {s' b' : Program} {types types' : List PendingType} {seats seats' : List Seat} (formed : p.WellFormed)
  (twinned : Twinned home p s s' b b' types types' seats seats')
include formed twinned

theorem Twinned.kin : Kin home s s' :=
  kin_of_seated formed twinned.seated twinned.seated' twinned.same twinned.distinct

theorem Twinned.twins {x y : PendingType} {e : Seat} (first : x ∈ types) (second : y ∈ types') (titled : Titled s x e)
    (titled' : Titled s' y e) : TwinTypes b b' (b.typeAt x.id) (b'.typeAt y.id) := by
  obtain ⟨d,tells,twins⟩ := tells_alike (twinned.kin formed) (titled'.doc.symm.trans titled.doc)
    (headersAlike_of_titled titled titled' (twinned.seated.blank x first) (twinned.seated'.blank y second))
    (twinned.populated.told x first)
  rw [tells.unique (twinned.populated'.told y second)] at twins
  exact twins.of_names twinned.populated.agree.fullName_eq twinned.populated'.agree.fullName_eq

omit formed in
theorem Twinned.old {t : TypeId} (inside : t.index < p.types.size) : b.typeAt t = p.typeAt t ∧ b'.typeAt t = p.typeAt t := by
  have apart {r : Program} {ts : List PendingType} (sketched : Sketched home p r ts) : t ∉ ts.map PendingType.id := by
    intro among
    rw [← sketched.walk] at among
    exact absurd inside (Nat.not_lt_of_le (sketched.mem_allTypes.mp among).1)
  exact ⟨(twinned.populated.others t (apart twinned.sketched)).trans (twinned.sketched.grown.typeAt_eq inside),
    (twinned.populated'.others t (apart twinned.sketched')).trans (twinned.sketched'.grown.typeAt_eq inside)⟩

theorem Twinned.kindred : Kindred home b b' := by
  have kin := twinned.kin formed
  refine ⟨kin.of_agree twinned.populated.agree twinned.populated.modules_eq twinned.populated'.agree
    twinned.populated'.modules_eq,fun name d d' found found' => ?_⟩
  rw [twinned.populated.agree.findType?_eq twinned.populated.modules_eq] at found
  rw [twinned.populated'.agree.findType?_eq twinned.populated'.modules_eq] at found'
  by_cases present : ∃ e ∈ seats, e.full = name
  · obtain ⟨e,member,rfl⟩ := present
    obtain ⟨x,first,here,titled⟩ := twinned.seated.findType?_own twinned.distinct member
    obtain ⟨y,second,there,titled'⟩ := twinned.seated'.findType?_own
      ((twinned.same.map Seat.full).nodup_iff.mpr twinned.distinct) (twinned.same.mem_iff.mpr member)
    rw [here] at found
    rw [there] at found'
    cases found
    cases found'
    exact twinned.twins formed first second titled titled'
  · have absent : ∀ e ∈ seats, e.full ≠ name := fun e member full => present ⟨e,member,full⟩
    rw [twinned.seated.findType?_foreign formed absent] at found
    rw [twinned.seated'.findType?_foreign formed fun e member => absent e (twinned.same.mem_iff.mp member),found] at found'
    cases found'
    have inside := foreign?_inside formed found
    have members := (formed.types d inside).members
    obtain ⟨old,old'⟩ := twinned.old inside
    rw [old,old']
    have first : TwinTypes p b (p.typeAt d) (p.typeAt d) := .of_formed members fun u within => by
      rw [twinned.populated.agree.fullName_eq,twinned.seated.kept.fullName_eq formed.grounded within]
    have second : TwinTypes p b' (p.typeAt d) (p.typeAt d) := .of_formed members fun u within => by
      rw [twinned.populated'.agree.fullName_eq,twinned.seated'.kept.fullName_eq formed.grounded within]
    exact first.symm.trans second

theorem Twinned.recites {x y : PendingType} {e : Seat} (first : x ∈ types) (second : y ∈ types') (titled : Titled s x e)
    (titled' : Titled s' y e) {k : Nat} {doc : MethodDoc} (at_ : x.doc.methods[k]? = some doc) :
    HeadersAlike b b' x.id y.id ∧ TwinMethods b b' (b.methodAt ⟨x.id,k⟩) (b'.methodAt ⟨y.id,k⟩) := by
  obtain ⟨d,here,-⟩ := (twinned.populated.told x first).method at_
  have headers := headersAlike_of_titled titled titled' (twinned.seated.blank x first) (twinned.seated'.blank y second)
  exact ⟨headers.of_agree twinned.populated.agree twinned.populated'.agree,
    (twinned.twins formed first second titled titled').method (List.getElem?_eq_some_iff.mp here).1⟩

theorem Twinned.exists_voiced (voiced : Voiced b home (types.map methods).flatten q) :
    ∃ q', ((types'.map methods).flatten.forM (fillBody home)).run b' = .ok (⟨⟩,q') := by
  refine Document.exists_voiced (twinned.populated'.waiting twinned.sketched')
    (twinned.populated'.nodup_methods twinned.sketched') fun m among => ?_
  obtain ⟨y,second,k,doc,at_,rfl⟩ := mem_methods.mp among
  obtain ⟨e,member,titled'⟩ := right_of_forall₂ twinned.seated'.titled second
  obtain ⟨x,first,titled⟩ := twinned.seated.exists_pending (twinned.same.mem_iff.mp member)
  have at_ : x.doc.methods[k]? = some doc := by
    rw [← titled.doc,titled'.doc]
    exact at_
  obtain ⟨owners,methods⟩ := twinned.recites formed first second titled titled' at_
  rcases voiced.spoken ⟨doc,⟨x.id,k⟩⟩ (mem_methods.mpr ⟨x,first,k,doc,at_,rfl⟩) with
    ⟨bodiless,-⟩ | ⟨-,locals,t,start,recites,-⟩
  · exact .inl bodiless
  · obtain ⟨locals',u,there,-⟩ := recites_alike (twinned.kindred formed) recites ⟨doc,⟨y.id,k⟩⟩ rfl owners methods
    exact .inr ⟨locals',u,there⟩

theorem Twinned.lines {q q' : Program} (voiced : Voiced b home (types.map methods).flatten q)
    (voiced' : Voiced b' home (types'.map methods).flatten q') {x y : PendingType} {e : Seat} (first : x ∈ types)
    (second : y ∈ types') (titled : Titled s x e) (titled' : Titled s' y e) (indent : String) :
    q'.typeHeadLines indent y.id = q.typeHeadLines indent x.id := by
  have headers := (headersAlike_of_titled titled titled' (twinned.seated.blank x first)
    (twinned.seated'.blank y second)).of_agree twinned.populated.agree twinned.populated'.agree
  have twins := twinned.twins formed first second titled titled'
  have names := voiced.agree.header.fullName_eq
  have names' := voiced'.agree.header.fullName_eq
  refine Program.typeHeadLines_alike (by rw [names,names',headers.name]) ?_ (fun k inside => ?_) indent
  · exact ((TwinTypes.of_agree voiced.agree x.id).symm.trans twins).trans (.of_agree voiced'.agree y.id)
  · rw [voiced.agree.length_methods_eq] at inside
    have length := (twinned.populated.told x first).methods.length_eq
    rw [length_zipIdx] at length
    obtain ⟨doc,at_⟩ : ∃ doc, x.doc.methods[k]? = some doc := ⟨_,getElem?_eq_getElem (by omega)⟩
    have at' : y.doc.methods[k]? = some doc := by
      rw [← titled'.doc,titled.doc]
      exact at_
    exact twinBodies_of_spoken (twinned.kindred formed) ⟨doc,⟨x.id,k⟩⟩ ⟨doc,⟨y.id,k⟩⟩ rfl headers
      (twins.method inside) names names' (voiced.spoken _ (mem_methods.mpr ⟨x,first,k,doc,at_,rfl⟩))
      (voiced'.spoken _ (mem_methods.mpr ⟨y,second,k,doc,at',rfl⟩))

variable {q' : Program} (voiced : Voiced b home (types.map methods).flatten q)
  (voiced' : Voiced b' home (types'.map methods).flatten q')
include voiced voiced'

omit formed in
theorem Twinned.names : ((q'.allTypes home).map q'.fullName).Perm ((q.allTypes home).map q.fullName) := by
  have agree := twinned.populated.agree.trans voiced.agree.header
  have agree' := twinned.populated'.agree.trans voiced'.agree.header
  rw [agree.allTypes_eq (voiced.modules_eq.trans twinned.populated.modules_eq),agree.fullName_eq,
    agree'.allTypes_eq (voiced'.modules_eq.trans twinned.populated'.modules_eq),agree'.fullName_eq,
    twinned.seated.map_fullName,twinned.seated'.map_fullName]
  exact twinned.same.map Seat.full

theorem Twinned.alike {t u : TypeId} (first : t ∈ q.allTypes home) (second : u ∈ q'.allTypes home)
    (name : q'.fullName u = q.fullName t) :
    (q'.typeAt u).declaring.map q'.fullName = (q.typeAt t).declaring.map q.fullName ∧
      ∀ indent, q'.typeHeadLines indent u = q.typeHeadLines indent t := by
  have agree := twinned.populated.agree.trans voiced.agree.header
  have agree' := twinned.populated'.agree.trans voiced'.agree.header
  rw [agree.allTypes_eq (voiced.modules_eq.trans twinned.populated.modules_eq),twinned.seated.walk] at first
  rw [agree'.allTypes_eq (voiced'.modules_eq.trans twinned.populated'.modules_eq),twinned.seated'.walk] at second
  obtain ⟨x,here,rfl⟩ := mem_map.mp first
  obtain ⟨y,there,rfl⟩ := mem_map.mp second
  obtain ⟨e,member,titled⟩ := right_of_forall₂ twinned.seated.titled here
  obtain ⟨f,member',titled'⟩ := right_of_forall₂ twinned.seated'.titled there
  rw [agree.fullName_eq,agree'.fullName_eq,titled.full,titled'.full] at name
  obtain rfl := inj_on_of_nodup_map twinned.distinct (twinned.same.mem_iff.mp member') member name
  refine ⟨?_,twinned.lines formed voiced voiced' here there titled titled'⟩
  rw [agree.fullName_eq,agree'.fullName_eq,agree.declaring_eq,agree'.declaring_eq,titled.outer,titled'.outer]

end

/-- A document in which no type names one that is itself moved can be linked in any order of its top-level types, if it can be
    linked at all. Its types get the same full names, and types with the same full name stand inside a type of the same name and
    are listed in the same lines, with their members and bodies. -/
theorem link_rearranged {doc : Document} {references : List ModuleId} {types : List (Option TypeDoc)} (formed : p.WellFormed)
    (fixed : Fixed doc.types) (same : types.Perm doc.types) (linked : doc.link p references = .ok (home,q)) :
    ∃ r, ({ doc with types } : Document).link p references = .ok (home,r) ∧
      ((r.allTypes home).map r.fullName).Perm ((q.allTypes home).map q.fullName) ∧
      ∀ t ∈ q.allTypes home, ∀ u ∈ r.allTypes home, r.fullName u = q.fullName t →
        (r.typeAt u).declaring.map r.fullName = (q.typeAt t).declaring.map q.fullName ∧
        ∀ indent, r.typeHeadLines indent u = q.typeHeadLines indent t := by
  obtain ⟨version,pending,s1,s,methods,b,rfl,named,versionRead,declared,bound,checked,members,bodies⟩ :=
    linkInto_eq_ok linked
  have base := wellFormed_addModule (m := { name := doc.moduleName, version, references }) formed rfl
  have empty : ((p.addModule { name := doc.moduleName, version, references }).2.moduleAt ⟨p.modules.size⟩).types = [] :=
    congrArg ModuleDecl.types (moduleAt_addModule_new _)
  have inside : p.modules.size < (p.addModule { name := doc.moduleName, version, references }).2.modules.size := by
    simp [Program.addModule]
  have laid := laidOut_perm TypeDoc.place same
  obtain ⟨sketched,seated⟩ := seated_of_run base empty inside fixed declared bound checked
  obtain ⟨pending',s1',s',declared',bound',checked',sketched',seated'⟩ :=
    exists_seated base empty inside fixed same declared bound checked
  have distinct := (checkNames_iff base empty inside fixed declared bound).mp checked
  obtain ⟨rfl,populated⟩ := populated_of_run sketched.blank_methods sketched.nodup_ids members
  obtain ⟨b',members'⟩ := exists_populated_again base seated sketched' seated' laid distinct populated
  obtain ⟨-,populated'⟩ := populated_of_run sketched'.blank_methods sketched'.nodup_ids members'
  have twinned : Twinned _ _ s s' b b' pending pending' _ _ :=
    ⟨sketched,sketched',seated,seated',laid,distinct,populated,populated'⟩
  have voiced := voiced_of_run (populated.waiting sketched) (populated.nodup_methods sketched) bodies
  obtain ⟨r,bodies'⟩ := twinned.exists_voiced base voiced
  have voiced' := voiced_of_run (populated'.waiting sketched') (populated'.nodup_methods sketched') bodies'
  exact ⟨r,link_of_phases named versionRead declared' bound' checked' members' bodies',twinned.names voiced voiced',
    fun _ first _ second => twinned.alike base voiced voiced' first second⟩

/-- A desk with a drawer, two things that are put into them, and a method that refers to all. -/
def desk : Document :=
  { moduleName := "Desk"
    types :=
      [some { name := "Desk"
              nested := [some { name := "Drawer", fields := [{ name := "clip", type := "Desk/Drawer/Clip" }] }] },
       some { name := "Pen", declaring := "Desk", methods := [{ name := ".ctor" }] },
       some { name := "Clip", declaring := "Desk/Drawer", base := "Desk/Pen" },
       some { name := "Main"
              methods :=
                [{ name := "Run", flags := ["static"], returns := "System.Object", locals := ["Desk/Drawer"]
                   body :=
                     ["newobj System.Void Desk/Pen::.ctor()","pop","br end",".label end","ldloc 0",
                      "ldfld Desk/Drawer/Clip Desk/Drawer::clip","castclass Desk/Pen","ret"] }] }] }

theorem link_rearranged_desk : ∃ home q r, desk.link Program.core [CoreLibrary.home] = .ok (home,q) ∧
    ({ desk with types := desk.types.reverse } : Document).link Program.core [CoreLibrary.home] = .ok (home,r) ∧
    ((r.allTypes home).map r.fullName).Perm ["Desk","Desk/Drawer","Desk/Pen","Desk/Drawer/Clip","Main"] ∧
    ∀ t ∈ q.allTypes home, ∀ u ∈ r.allTypes home, r.fullName u = q.fullName t →
      (r.typeAt u).declaring.map r.fullName = (q.typeAt t).declaring.map q.fullName ∧
      ∀ indent, r.typeHeadLines indent u = q.typeHeadLines indent t := by
  obtain ⟨home,q,linked,evaluated⟩ := desk.link_passes (f := fun home p =>
    (p.allTypes home).map p.fullName == ["Desk","Desk/Drawer","Desk/Pen","Desk/Drawer/Clip","Main"]) (by decide +kernel)
  obtain ⟨r,again,names,alike⟩ := link_rearranged Program.core_wellFormed (by decide +kernel) (List.reverse_perm _) linked
  rw [beq_iff_eq.mp evaluated] at names
  exact ⟨home,q,r,linked,again,names,alike⟩

end Document
end Loom
