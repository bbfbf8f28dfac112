import Loom.Typeclass.Index
import Loom.Proofs.Sameness

/-!
Matching patterns. A pattern matches a type exactly if its parameters can be replaced so that it becomes that type. The
bindings are then the most general replacement, made for the parameters that occur in the pattern.
-/
namespace Loom.Program

open List TypeRef

variable {p : Program} {owner : TypeId} {f : Nat → TypeRef} {pattern actual : TypeRef} {bound bound' : Bindings} {k : Nat}

def bindParam (owner : TypeId) (f : Nat → TypeRef) (g : GenericParam) : TypeRef :=
  if g.owner = .type owner then f g.position else .param g

def Obeys (p : Program) (f : Nat → TypeRef) (bound : Bindings) : Prop :=
  ∀ k t, bound.lookup k = some t → p.same (f k) t = true

theorem obeys_cons {t : TypeRef} (fresh : bound.lookup k = none) :
    p.Obeys f ((k,t) :: bound) ↔ p.Obeys f bound ∧ p.same (f k) t = true := by
  constructor
  · intro obeys
    refine ⟨fun j u known => obeys j u ?_,obeys k t (by rw [lookup_cons,beq_self_eq_true])⟩
    have different : (j == k) = false := by
      rw [beq_eq_false_iff_ne]
      rintro rfl
      rw [fresh] at known
      cases known
    rw [lookup_cons,different]
    exact known
  · rintro ⟨obeys,here⟩ j u known
    rw [lookup_cons] at known
    split at known
    · next same =>
      cases known
      rwa [eq_of_beq same]
    · exact obeys j u known

private theorem exists_tested {α : Type} {c : Prop} [Decidable c] {a : α} {holds : α → Prop} :
    (∃ b, (if c then some a else none) = some b ∧ holds b) ↔ holds a ∧ c := by
  constructor
  · rintro ⟨b,taken,here⟩
    obtain ⟨test,⟨⟩⟩ := Option.ite_none_right_eq_some.mp taken
    exact ⟨here,test⟩
  · rintro ⟨here,test⟩
    exact ⟨a,if_pos test,here⟩

theorem unifyList_iff {as bs : List TypeRef} (each : ∀ a ∈ as, ∀ b bound,
      (∃ bound', p.unify owner a b bound = some bound' ∧ p.Obeys f bound') ↔
        p.Obeys f bound ∧ p.same (a.mapParams (bindParam owner f)) b = true) :
    (∃ bound', p.unifyList owner as bs bound = some bound' ∧ p.Obeys f bound') ↔
      p.Obeys f bound ∧ p.sameList (as.map (mapParams (bindParam owner f))) bs = true := by
  induction as generalizing bs bound with
  | nil => cases bs <;> simp [unifyList,sameList]
  | cons a rest ih =>
    cases bs with
    | nil => simp [unifyList,sameList]
    | cons b others =>
      have later (middle : Bindings) : (∃ bound', p.unifyList owner rest others middle = some bound' ∧ p.Obeys f bound') ↔
          p.Obeys f middle ∧ p.sameList (rest.map (mapParams (bindParam owner f))) others = true :=
        ih fun a member => each a (.tail _ member)
      rw [map_cons,sameList,Bool.and_eq_true,← and_assoc,← each a (.head _)]
      simp only [unifyList,Option.bind_eq_some_iff]
      constructor
      · rintro ⟨bound',⟨middle,first,second⟩,obeys⟩
        obtain ⟨between,same⟩ := (later middle).mp ⟨bound',second,obeys⟩
        exact ⟨⟨middle,first,between⟩,same⟩
      · rintro ⟨⟨middle,first,between⟩,same⟩
        obtain ⟨bound',second,obeys⟩ := (later middle).mpr ⟨between,same⟩
        exact ⟨bound',⟨middle,first,second⟩,obeys⟩

/-- The replacements that obey the bindings after a match are those that obeyed the ones before it and make the pattern
    the type that it was matched with. -/
theorem unify_iff : (∃ bound', p.unify owner pattern actual bound = some bound' ∧ p.Obeys f bound') ↔
    p.Obeys f bound ∧ p.same (pattern.mapParams (bindParam owner f)) actual = true := by
  induction pattern generalizing actual bound with
  | absent => cases actual <;> simp [unify,same,isAbsent]
  | decl d => exact exists_tested
  | param g =>
    rw [mapParams_param,bindParam,unify]
    split
    · cases found : bound.lookup g.position with
      | none => simp [obeys_cons found]
      | some known =>
        -- a parameter that is bound already: the replacement gives it the known type
        have both (obeys : p.Obeys f bound) : p.same known actual = p.same (f g.position) actual := by
          rw [Bool.eq_iff_iff,same_iff,same_iff,same_iff.mp (obeys _ _ found)]
        exact exists_tested.trans (and_congr_right fun obeys => by rw [both obeys])
    · exact exists_tested
  | applied a as ih =>
    cases actual with
    | applied b bs =>
      rw [mapParams_applied,same,Bool.and_eq_true,unify]
      split
      · next heads =>
        rw [unifyList_iff fun a member _ _ => ih a member]
        simp [heads]
      · next heads => simp [heads]
    | absent => simp [unify,same]
    | decl b => simp [unify,same]
    | param g => simp [unify,same]

/-- A parameter of the owner stands in the pattern at that position. -/
def Occurs (owner : TypeId) (k : Nat) (pattern : TypeRef) : Prop :=
  ∃ g : GenericParam, .param g ∈ pattern.parts ∧ g.owner = .type owner ∧ g.position = k

/-- What a match adds for a position: nothing, if the pattern does not have it, and else a part of the type. -/
def Adds (owner : TypeId) (k : Nat) (pattern actual : TypeRef) (new : Option TypeRef) : Prop :=
  (new.isSome ↔ Occurs owner k pattern) ∧ ∀ t ∈ new, t ∈ actual.parts

theorem not_occurs {t : TypeRef} (closed : t.isOpen = false) : ¬Occurs owner k t := by
  rintro ⟨g,within,-⟩
  exact absurd (isOpen_iff.mpr ⟨g,within⟩) (Bool.eq_false_iff.mp closed)

theorem unifyList_adds {as bs : List TypeRef} (each : ∀ a ∈ as, ∀ b bound bound', p.unify owner a b bound = some bound' →
      ∃ new, bound'.lookup k = (bound.lookup k).or new ∧ Adds owner k a b new)
    (done : p.unifyList owner as bs bound = some bound') :
    ∃ new, bound'.lookup k = (bound.lookup k).or new ∧ (new.isSome ↔ ∃ a ∈ as, Occurs owner k a) ∧
      ∀ t ∈ new, ∃ b ∈ bs, t ∈ b.parts := by
  induction as generalizing bs bound with
  | nil =>
    cases bs with
    | nil =>
      cases done
      exact ⟨none,by simp⟩
    | cons b rest => cases done
  | cons a rest ih =>
    cases bs with
    | nil => cases done
    | cons b others =>
      obtain ⟨middle,first,later⟩ := Option.bind_eq_some_iff.mp done
      obtain ⟨new,before,occurs,part⟩ := each a (.head _) b _ _ first
      obtain ⟨more,after,occurs',part'⟩ := ih (fun a member => each a (.tail _ member)) later
      refine ⟨new.or more,by rw [after,before,Option.or_assoc],?_,fun t member => ?_⟩
      · simp [occurs,occurs']
      · rcases Option.or_eq_some_iff.mp member with here | ⟨-,there⟩
        · exact ⟨b,.head _,part t here⟩
        · obtain ⟨u,among,within⟩ := part' t there
          exact ⟨u,.tail _ among,within⟩

theorem unify_adds (done : p.unify owner pattern actual bound = some bound') :
    ∃ new, bound'.lookup k = (bound.lookup k).or new ∧ Adds owner k pattern actual new := by
  induction pattern generalizing actual bound bound' with
  | absent =>
    obtain ⟨-,⟨⟩⟩ := Option.ite_none_right_eq_some.mp done
    exact ⟨none,by simp,by simpa using not_occurs rfl,by simp⟩
  | decl d =>
    obtain ⟨-,⟨⟩⟩ := Option.ite_none_right_eq_some.mp done
    exact ⟨none,by simp,by simpa using not_occurs rfl,by simp⟩
  | param g =>
    have occurs : Occurs owner k (.param g) ↔ g.owner = .type owner ∧ g.position = k := by
      simp [Occurs]
    rw [unify] at done
    split at done
    · next owned =>
      refine ⟨if g.position = k then some actual else none,?_,by simp [occurs,owned],?_⟩
      · split at done
        · next known found =>
          obtain ⟨-,⟨⟩⟩ := Option.ite_none_right_eq_some.mp done
          by_cases here : g.position = k
          · rw [← here,found]
            rfl
          · simp [here]
        · next fresh =>
          cases done
          by_cases here : g.position = k
          · simp [← here,fresh]
          · rw [lookup_cons,beq_eq_false_iff_ne.mpr (Ne.symm here),if_neg here,Option.or_none]
      · intro t member
        obtain ⟨-,⟨⟩⟩ := Option.ite_none_right_eq_some.mp member
        exact mem_parts_self _
    · next foreign =>
      obtain ⟨-,⟨⟩⟩ := Option.ite_none_right_eq_some.mp done
      exact ⟨none,by simp,by simp [occurs,foreign],by simp⟩
  | applied a as ih =>
    cases actual with
    | applied b bs =>
      obtain ⟨-,inner⟩ := Option.ite_none_right_eq_some.mp done
      obtain ⟨new,looked,occurs,part⟩ := unifyList_adds (fun a member _ _ _ => ih a member) inner
      refine ⟨new,looked,occurs.trans ?_,fun t member => mem_parts_applied.mpr (.inr (part t member))⟩
      simp only [Occurs,mem_parts_applied,reduceCtorEq,false_or]
      constructor
      · rintro ⟨a,among,g,within,owned⟩
        exact ⟨g,⟨a,among,within⟩,owned⟩
      · rintro ⟨g,⟨a,among,within⟩,owned⟩
        exact ⟨a,among,g,within,owned⟩
    | absent => cases done
    | decl b => cases done
    | param g => cases done

/-- A pattern matches a type exactly if some replacement of the owner's parameters makes it the same type. The bindings
    are then those of the positions that occur in the pattern, they are such a replacement, and all others agree with
    them. -/
theorem unify_most_general (p : Program) (owner : TypeId) (pattern actual : TypeRef) :
    ((p.unify owner pattern actual []).isSome = true ↔
      ∃ f, p.same (pattern.mapParams (bindParam owner f)) actual = true) ∧
    ∀ bound, p.unify owner pattern actual [] = some bound →
      (∀ k, (bound.lookup k).isSome = true ↔ Occurs owner k pattern) ∧
      p.same (pattern.mapParams (bindParam owner fun k => (bound.lookup k).getD .absent)) actual = true ∧
      ∀ f, p.same (pattern.mapParams (bindParam owner f)) actual = true →
        ∀ k t, bound.lookup k = some t → p.same (f k) t = true := by
  have start (f : Nat → TypeRef) : p.Obeys f [] := by
    rintro k t ⟨⟩
  have own (bound : Bindings) : p.Obeys (fun k => (bound.lookup k).getD .absent) bound := by
    intro k t known
    show p.same ((bound.lookup k).getD .absent) t = true
    rw [known]
    exact same_iff.mpr rfl
  refine ⟨?_,fun bound done => ⟨fun k => ?_,(unify_iff.mp ⟨bound,done,own bound⟩).2,fun f matched => ?_⟩⟩
  · rw [Option.isSome_iff_exists]
    constructor
    · rintro ⟨bound,done⟩
      exact ⟨_,(unify_iff.mp ⟨bound,done,own bound⟩).2⟩
    · rintro ⟨f,matched⟩
      obtain ⟨bound,done,-⟩ := unify_iff.mpr ⟨start f,matched⟩
      exact ⟨bound,done⟩
  · obtain ⟨new,looked,occurs,-⟩ := unify_adds (k := k) done
    rw [looked]
    exact occurs
  · obtain ⟨bound',done',obeys⟩ := unify_iff.mpr ⟨start f,matched⟩
    rw [done] at done'
    cases done'
    exact obeys

end Loom.Program
