import Loom.Proofs.Lists

/-!
Runs that end well. A computation in steps ends well exactly when each step does, and hands its state on; what each
round of a loop keeps, the loop keeps. A pass that fails keeps what each of its steps keeps.
-/
namespace Loom

open List

variable {ε σ α β γ : Type}
variable {xs : List α} {R : α → β → Prop} {ys : List β}

/-! ### Results -/

namespace Except

variable {x : Except ε α}

theorem bind_eq_ok {f : α → Except ε β} {b : β} : x >>= f = .ok b ↔ ∃ a, x = .ok a ∧ f a = .ok b := by
  cases x with
  | error e => simp [bind,Except.bind]
  | ok a => simp [bind,Except.bind]

theorem map_eq_ok {f : α → β} {b : β} : f <$> x = .ok b ↔ ∃ a, x = .ok a ∧ f a = b := by
  cases x with
  | error e => simp [Functor.map,Except.map]
  | ok a => simp [Functor.map,Except.map]

theorem mapError_eq_ok {f : ε → γ} {a : α} : x.mapError f = .ok a ↔ x = .ok a := by
  cases x with
  | error e => simp [Except.mapError]
  | ok a => simp [Except.mapError]

theorem mapM_eq_ok {f : α → Except ε β} {xs : List α} {ys : List β} :
    xs.mapM f = .ok ys ↔ Forall₂ (fun x y => f x = .ok y) xs ys := by
  induction xs generalizing ys with
  | nil => cases ys <;> simp [pure,Except.pure]
  | cons x rest ih =>
    rw [mapM_cons,bind_eq_ok]
    constructor
    · rintro ⟨y,first,later⟩
      obtain ⟨zs,others,⟨⟩⟩ := bind_eq_ok.mp later
      exact .cons first (ih.mp others)
    · intro all
      cases all with
      | cons first others => exact ⟨_,first,bind_eq_ok.mpr ⟨_,ih.mpr others,rfl⟩⟩

/-- There is a result, and it passes a test. -/
def passes (r : Except ε α) (f : α → Bool) : Bool :=
  match r with
  | .ok a => f a
  | .error _ => false

theorem exists_of_passes {r : Except ε α} {f : α → Bool} (passed : passes r f = true) : ∃ a, r = .ok a ∧ f a = true := by
  cases r with
  | error e => cases passed
  | ok a => exact ⟨a,rfl,passed⟩

end Except

/-! ### Passes -/

namespace Runs

variable {x : ExceptT ε (StateM σ) α} {f : α → ExceptT ε (StateM σ) β} {u : PUnit}

/-- A pass ended well, and what it left behind passes a test. -/
def passes (r : Except ε α × σ) (f : α → σ → Bool) : Bool := Except.passes r.1 (f · r.2)

theorem exists_of_passes {r : Except ε α × σ} {f : α → σ → Bool} (passed : passes r f = true) :
    ∃ a s, r = (.ok a,s) ∧ f a s = true := by
  obtain ⟨a,ended,tested⟩ := Except.exists_of_passes passed
  exact ⟨a,r.2,Prod.ext ended rfl,tested⟩

variable {s s' : σ}

theorem run_bind_eq : (x >>= f).run s = match x.run s with
      | (.ok a,t) => (f a).run t
      | (.error e,t) => (.error e,t) := by
  simp only [ExceptT.run,bind,ExceptT.bind,ExceptT.mk,ExceptT.bindCont,StateT.bind]
  rcases x s with ⟨e | a,t⟩ <;> rfl

theorem run_bind_of_ok {a : α} {t : σ} (ran : x.run s = (.ok a,t)) : (x >>= f).run s = (f a).run t := by
  rw [run_bind_eq,ran]

theorem run_bind_of_error {e : ε} {t : σ} (ran : x.run s = (.error e,t)) : (x >>= f).run s = (.error e,t) := by
  rw [run_bind_eq,ran]

theorem run_bind_eq_ok {b : β} :
    (x >>= f).run s = (.ok b,s') ↔ ∃ a t, x.run s = (.ok a,t) ∧ (f a).run t = (.ok b,s') := by
  rw [run_bind_eq]
  rcases x.run s with ⟨e | a,t⟩
  · constructor
    · intro done; cases done
    · rintro ⟨a,u,done,-⟩; cases done
  · constructor
    · intro done; exact ⟨a,t,rfl,done⟩
    · rintro ⟨a',u,same,done⟩; cases same; exact done

theorem run_pure_eq_ok {a b : α} : (pure a : ExceptT ε (StateM σ) α).run s = (.ok b,s') ↔ a = b ∧ s = s' := by
  show ((.ok a,s) : Except ε α × σ) = _ ↔ _
  simp

theorem run_throw_ne_ok {e : ε} {b : α} : (throw e : ExceptT ε (StateM σ) α).run s ≠ (.ok b,s') := by
  show ((.error e,s) : Except ε α × σ) ≠ _
  simp

theorem run_throw_bind_ne_ok {e : ε} {b : β} : ((throw e) >>= f).run s ≠ (.ok b,s') :=
  run_throw_ne_ok

theorem run_get_eq_ok {a : σ} : (get : ExceptT ε (StateM σ) σ).run s = (.ok a,s') ↔ s = a ∧ s = s' := by
  show ((.ok s,s) : Except ε σ × σ) = _ ↔ _
  simp

theorem run_get_bind {f : σ → ExceptT ε (StateM σ) β} : (get >>= f).run s = (f s).run s := rfl

theorem run_set_eq_ok {t : σ} : (set t : ExceptT ε (StateM σ) PUnit).run s = (.ok u,s') ↔ t = s' := by
  show ((.ok ⟨⟩,t) : Except ε PUnit × σ) = _ ↔ _
  simp

theorem run_modify_eq_ok {f : σ → σ} : (modify f : ExceptT ε (StateM σ) PUnit).run s = (.ok u,s') ↔ f s = s' := by
  show ((.ok ⟨⟩,f s) : Except ε PUnit × σ) = _ ↔ _
  simp

theorem run_modifyGet_eq_ok {f : σ → α × σ} {a : α} :
    (modifyGet f : ExceptT ε (StateM σ) α).run s = (.ok a,s') ↔ f s = (a,s') := by
  show ((.ok (f s).1,(f s).2) : Except ε α × σ) = _ ↔ _
  rw [Prod.mk.injEq,Prod.ext_iff]
  simp

theorem run_lift_eq_ok {r : Except ε α} {a : α} :
    (ExceptT.mk (pure r) : ExceptT ε (StateM σ) α).run s = (.ok a,s') ↔ r = .ok a ∧ s = s' := by
  show ((r,s) : Except ε α × σ) = _ ↔ _
  simp

theorem run_tryCatch_eq_ok {f : ε → ε} {a : α} :
    (tryCatch x fun e => throw (f e)).run s = (.ok a,s') ↔ x.run s = (.ok a,s') := by
  show (match (x.run s).1 with
    | .ok b => (pure (.ok b) : StateM σ (Except ε α))
    | .error e => pure (.error (f e))).run (x.run s).2 = _ ↔ _
  rcases x.run s with ⟨_ | _,t⟩
  · exact ⟨nofun,nofun⟩
  · exact Iff.rfl

theorem run_tryCatch_eq {f : ε → ExceptT ε (StateM σ) α} : (tryCatch x f).run s = match x.run s with
      | (.ok a,t) => (.ok a,t)
      | (.error e,t) => (f e).run t := by
  simp only [ExceptT.run,tryCatch,tryCatchThe,MonadExceptOf.tryCatch,ExceptT.tryCatch,ExceptT.mk,bind,StateT.bind]
  rcases x s with ⟨e | a,t⟩ <;> rfl

theorem run_forM_cons_eq_ok {f : α → ExceptT ε (StateM σ) PUnit} {a : α} {rest : List α} :
    ((a :: rest).forM f).run s = (.ok u,s') ↔ ∃ t, (f a).run s = (.ok ⟨⟩,t) ∧ (rest.forM f).run t = (.ok u,s') := by
  show ((f a) >>= fun _ => rest.forM f).run s = _ ↔ _
  rw [run_bind_eq_ok]
  constructor
  · rintro ⟨_,t,first,later⟩; exact ⟨t,first,later⟩
  · rintro ⟨t,first,later⟩; exact ⟨⟨⟩,t,first,later⟩

theorem run_mapM_cons_eq_ok {a : α} {rest : List α} {ys : List β} : ((a :: rest).mapM f).run s = (.ok ys,s') ↔
      ∃ y t zs, (f a).run s = (.ok y,t) ∧ (rest.mapM f).run t = (.ok zs,s') ∧ ys = y :: zs := by
  simp only [mapM_cons,run_bind_eq_ok,run_pure_eq_ok]
  constructor
  · rintro ⟨y,t,first,zs,_,others,rfl,rfl⟩
    exact ⟨y,t,zs,first,others,rfl⟩
  · rintro ⟨y,t,zs,first,others,rfl⟩
    exact ⟨y,t,first,zs,s',others,rfl,rfl⟩

/-- What each round brings about and later rounds keep holds at the end. -/
theorem forM_each {I : σ → Prop} {Q : α → σ → Prop} {f : α → ExceptT ε (StateM σ) PUnit} {xs : List α}
    (round : ∀ a ∈ xs, ∀ t t', I t → (f a).run t = (.ok ⟨⟩,t') → I t' ∧ Q a t' ∧ ∀ b, Q b t → Q b t')
    (done : (xs.forM f).run s = (.ok u,s')) (start : I s) : I s' ∧ (∀ a ∈ xs, Q a s') ∧ ∀ b, Q b s → Q b s' := by
  induction xs generalizing s with
  | nil =>
    obtain ⟨-,rfl⟩ := run_pure_eq_ok.mp done
    exact ⟨start,nofun,fun _ holds => holds⟩
  | cons a rest ih =>
    obtain ⟨t,first,later⟩ := run_forM_cons_eq_ok.mp done
    obtain ⟨next,here,kept⟩ := round a (.head _) s t start first
    obtain ⟨last,others,after⟩ := ih (fun b member => round b (.tail _ member)) later next
    exact ⟨last,forall_mem_cons.mpr ⟨after a here,others⟩,fun b holds => after b (kept b holds)⟩

theorem forM_keeps {I : σ → Prop} {f : α → ExceptT ε (StateM σ) PUnit} {xs : List α}
    (round : ∀ a ∈ xs, ∀ t t', I t → (f a).run t = (.ok ⟨⟩,t') → I t') (done : (xs.forM f).run s = (.ok u,s'))
    (start : I s) : I s' :=
  (forM_each (Q := fun _ _ => True)
    (fun a member t t' holds ran => ⟨round a member t t' holds ran,trivial,fun _ => id⟩) done start).1

/-! ### Passes that may fail -/

/-- The first step fails and so does the whole, or the second step goes on. -/
theorem run_bind_cases {R : Except ε β × σ → Prop} (failed : ∀ e, (x.run s).1 = .error e → R (.error e,(x.run s).2))
    (passed : ∀ a t, x.run s = (.ok a,t) → R ((f a).run t)) : R ((x >>= f).run s) := by
  rw [run_bind_eq]
  rcases ran : x.run s with ⟨e | a,t⟩
  · rw [ran] at failed
    exact failed e rfl
  · exact passed a t ran

section Failing

variable {I : σ → Prop}
variable {f : α → ExceptT ε (StateM σ) β}

theorem after_bind {x : ExceptT ε (StateM σ) α} (first : I (x.run s).2)
    (later : ∀ a t, x.run s = (.ok a,t) → I t → I ((f a).run t).2) : I ((x >>= f).run s).2 := by
  refine run_bind_cases (R := fun r => I r.2) (fun _ _ => first) (fun a t ran => later a t ran ?_)
  rw [ran] at first
  exact first

theorem after_bind_ok {x : ExceptT ε (StateM σ) α} {a : α} {t : σ} (first : x.run s = (.ok a,t))
    (later : I ((f a).run t).2) : I ((x >>= f).run s).2 := by
  rw [run_bind_eq,first]
  exact later

theorem after_forM {f : α → ExceptT ε (StateM σ) PUnit} {xs : List α} (round : ∀ a ∈ xs, ∀ t, I t → I ((f a).run t).2)
    (start : I s) : I ((xs.forM f).run s).2 := by
  induction xs generalizing s with
  | nil => exact start
  | cons a rest ih =>
    exact after_bind (round a (.head _) s start) fun _ _ _ holds => ih (fun b member => round b (.tail _ member)) holds

theorem after_mapM {xs : List α} (round : ∀ a ∈ xs, ∀ t, I t → I ((f a).run t).2) (start : I s) :
    I ((xs.mapM f).run s).2 := by
  induction xs generalizing s with
  | nil => exact start
  | cons a rest ih =>
    rw [mapM_cons]
    refine after_bind (round a (.head _) s start) fun _ _ _ holds => ?_
    exact after_bind (ih (fun b member => round b (.tail _ member)) holds) fun _ _ _ holds => holds

end Failing

end Runs

/-! ### Linkings -/

namespace Linkage

variable {s s' : σ}
variable {f : α → StateT σ (Except ε) β} {xs rest : List α}

theorem run_bind_eq_ok {x : StateT σ (Except ε) α} {b : β} :
    (x >>= f).run s = .ok (b,s') ↔ ∃ a t, x.run s = .ok (a,t) ∧ (f a).run t = .ok (b,s') := by
  show (x.run s >>= fun r => (f r.1).run r.2) = _ ↔ _
  rw [Except.bind_eq_ok]
  constructor
  · rintro ⟨⟨a,t⟩,first,later⟩; exact ⟨a,t,first,later⟩
  · rintro ⟨a,t,first,later⟩; exact ⟨(a,t),first,later⟩

theorem run_pure_eq_ok {a b : α} : (pure a : StateT σ (Except ε) α).run s = .ok (b,s') ↔ a = b ∧ s = s' := by
  show (.ok (a,s) : Except ε (α × σ)) = _ ↔ _
  simp

theorem run_throw_ne_ok {e : ε} {b : α} : (throw e : StateT σ (Except ε) α).run s ≠ .ok (b,s') := by
  show (.error e : Except ε (α × σ)) ≠ _
  simp

theorem run_throw_bind_ne_ok {e : ε} {b : β} : ((throw e) >>= f).run s ≠ .ok (b,s') :=
  run_throw_ne_ok

theorem run_get_eq_ok {a : σ} : (get : StateT σ (Except ε) σ).run s = .ok (a,s') ↔ s = a ∧ s = s' := by
  show (.ok (s,s) : Except ε (σ × σ)) = _ ↔ _
  simp

theorem run_get_bind {f : σ → StateT σ (Except ε) β} : (get >>= f).run s = (f s).run s := rfl

theorem run_modify_eq_ok {f : σ → σ} {u : PUnit} :
    (modify f : StateT σ (Except ε) PUnit).run s = .ok (u,s') ↔ f s = s' := by
  show (.ok (⟨⟩,f s) : Except ε (PUnit × σ)) = _ ↔ _
  simp

theorem run_modify_bind {g : σ → σ} {f : PUnit → StateT σ (Except ε) β} : (modify g >>= f).run s = (f ⟨⟩).run (g s) := rfl

theorem run_modifyGet_eq_ok {f : σ → α × σ} {a : α} :
    (modifyGet f : StateT σ (Except ε) α).run s = .ok (a,s') ↔ f s = (a,s') := by
  show (.ok (f s) : Except ε (α × σ)) = _ ↔ _
  simp

theorem run_lift_eq_ok {r : Except ε α} {a : α} :
    (liftM r : StateT σ (Except ε) α).run s = .ok (a,s') ↔ r = .ok a ∧ s = s' := by
  cases r with
  | error e =>
    show (.error e : Except ε (α × σ)) = _ ↔ _
    simp
  | ok b =>
    show (.ok (b,s) : Except ε (α × σ)) = _ ↔ _
    simp

theorem run_lift_bind_eq_ok {r : Except ε α} {b : β} :
    ((liftM r : StateT σ (Except ε) α) >>= f).run s = .ok (b,s') ↔ ∃ a, r = .ok a ∧ (f a).run s = .ok (b,s') := by
  simp only [run_bind_eq_ok,run_lift_eq_ok]
  constructor
  · rintro ⟨a,_,⟨read,rfl⟩,later⟩
    exact ⟨a,read,later⟩
  · rintro ⟨a,read,later⟩
    exact ⟨a,s,⟨read,rfl⟩,later⟩

theorem run_forM_cons {f : α → StateT σ (Except ε) PUnit} {a : α} :
    ((a :: rest).forM f).run s = (f a).run s >>= fun r => (rest.forM f).run r.2 :=
  rfl

theorem run_forM_cons_eq_ok {f : α → StateT σ (Except ε) PUnit} {a : α} {u : PUnit} :
    ((a :: rest).forM f).run s = .ok (u,s') ↔ ∃ t, (f a).run s = .ok (⟨⟩,t) ∧ (rest.forM f).run t = .ok (u,s') := by
  show ((f a) >>= fun _ => rest.forM f).run s = _ ↔ _
  rw [run_bind_eq_ok]
  constructor
  · rintro ⟨_,t,first,later⟩; exact ⟨t,first,later⟩
  · rintro ⟨t,first,later⟩; exact ⟨⟨⟩,t,first,later⟩

theorem run_mapM_cons_eq_ok {a : α} {ys : List β} : ((a :: rest).mapM f).run s = .ok (ys,s') ↔
      ∃ y t zs, (f a).run s = .ok (y,t) ∧ (rest.mapM f).run t = .ok (zs,s') ∧ ys = y :: zs := by
  simp only [mapM_cons,run_bind_eq_ok,run_pure_eq_ok]
  constructor
  · rintro ⟨y,t,first,zs,_,others,rfl,rfl⟩
    exact ⟨y,t,zs,first,others,rfl⟩
  · rintro ⟨y,t,zs,first,others,rfl⟩
    exact ⟨y,t,first,zs,s',others,rfl,rfl⟩

theorem forall₂_of_run_mapM {R : α → β → Prop} {ys : List β}
    (each : ∀ a ∈ xs, ∀ b t t', (f a).run t = .ok (b,t') → R a b) (done : (xs.mapM f).run s = .ok (ys,s')) :
    Forall₂ R xs ys := by
  induction xs generalizing s ys with
  | nil =>
    obtain ⟨rfl,-⟩ := run_pure_eq_ok.mp done
    exact .nil
  | cons a rest ih =>
    obtain ⟨y,t,zs,first,others,rfl⟩ := run_mapM_cons_eq_ok.mp done
    exact .cons (each a (.head _) y s t first) (ih (fun b member => each b (.tail _ member)) others)

theorem run_mapM_lift_eq_ok {f : α → Except ε β} {ys : List β} :
    (xs.mapM fun x => (liftM (f x) : StateT σ (Except ε) β)).run s = .ok (ys,s') ↔
      Forall₂ (fun x y => f x = .ok y) xs ys ∧ s = s' := by
  induction xs generalizing ys with
  | nil =>
    rw [mapM_nil,run_pure_eq_ok,forall₂_nil_left_iff,eq_comm]
  | cons x rest ih =>
    rw [run_mapM_cons_eq_ok]
    constructor
    · rintro ⟨y,t,zs,first,others,rfl⟩
      obtain ⟨read,rfl⟩ := run_lift_eq_ok.mp first
      obtain ⟨all,rfl⟩ := ih.mp others
      exact ⟨.cons read all,rfl⟩
    · rintro ⟨all,rfl⟩
      cases all with
      | cons read others => exact ⟨_,s,_,run_lift_eq_ok.mpr ⟨read,rfl⟩,ih.mpr ⟨others,rfl⟩,rfl⟩

theorem run_foldlM_cons_eq_ok {f : β → α → StateT σ (Except ε) β} {b c : β} {a : α} :
    ((a :: rest).foldlM f b).run s = .ok (c,s') ↔
      ∃ d t, (f b a).run s = .ok (d,t) ∧ (rest.foldlM f d).run t = .ok (c,s') := by
  rw [foldlM_cons,run_bind_eq_ok]

theorem run_of_foldlM {f : β → α → StateT σ (Except ε) β} {b c : β} {a : α} (done : (xs.foldlM f b).run s = .ok (c,s'))
    (member : a ∈ xs) : ∃ d t e t', (f d a).run t = .ok (e,t') := by
  induction xs generalizing s b with
  | nil => cases member
  | cons x rest ih =>
    obtain ⟨d,t,first,later⟩ := run_foldlM_cons_eq_ok.mp done
    rcases mem_cons.mp member with rfl | member
    · exact ⟨b,s,d,t,first⟩
    · exact ih later member

theorem run_of_forM {f : α → StateT σ (Except ε) PUnit} {u : PUnit} {a : α} (done : (xs.forM f).run s = .ok (u,s'))
    (member : a ∈ xs) : ∃ t t', (f a).run t = .ok (⟨⟩,t') := by
  induction xs generalizing s with
  | nil => cases member
  | cons x rest ih =>
    obtain ⟨t,first,later⟩ := run_forM_cons_eq_ok.mp done
    rcases mem_cons.mp member with rfl | member
    · exact ⟨s,t,first⟩
    · exact ih later member

theorem forM_keeps {I : σ → Prop} {f : α → StateT σ (Except ε) PUnit} {u : PUnit}
    (round : ∀ a ∈ xs, ∀ t t', I t → (f a).run t = .ok (⟨⟩,t') → I t') (done : (xs.forM f).run s = .ok (u,s'))
    (start : I s) : I s' := by
  induction xs generalizing s with
  | nil =>
    obtain ⟨-,rfl⟩ := run_pure_eq_ok.mp done
    exact start
  | cons a rest ih =>
    obtain ⟨t,first,later⟩ := run_forM_cons_eq_ok.mp done
    exact ih (fun b member => round b (.tail _ member)) later (round a (.head _) s t start first)

theorem forM_runs {f : α → StateT σ (Except ε) PUnit} {I : List α → σ → Prop} (xs : List α)
    (step : ∀ front x back t, xs = front ++ x :: back → I front t → ∃ t', (f x).run t = .ok (⟨⟩,t') ∧ I (front ++ [x]) t')
    (start : I [] s) : ∃ s', (xs.forM f).run s = .ok (⟨⟩,s') ∧ I xs s' := by
  suffices rest : ∀ back front t, xs = front ++ back → I front t → ∃ t', (back.forM f).run t = .ok (⟨⟩,t') ∧ I xs t' from
    rest xs [] s rfl start
  intro back
  induction back with
  | nil =>
    intro front t split holds
    rw [append_nil] at split
    exact ⟨t,rfl,split ▸ holds⟩
  | cons x back ih =>
    intro front t split holds
    obtain ⟨t',first,holds⟩ := step front x back t split holds
    obtain ⟨t'',later,holds⟩ := ih (front ++ [x]) t' (by rw [split,append_assoc]; rfl) holds
    exact ⟨t'',run_forM_cons_eq_ok.mpr ⟨t',first,later⟩,holds⟩

theorem mapM_runs {I : List α → List β → σ → Prop} (xs : List α)
    (step : ∀ front x back ys t, xs = front ++ x :: back → I front ys t →
      ∃ y t', (f x).run t = .ok (y,t') ∧ I (front ++ [x]) (ys ++ [y]) t')
    (start : I [] [] s) : ∃ ys s', (xs.mapM f).run s = .ok (ys,s') ∧ I xs ys s' := by
  suffices rest : ∀ back front done t, xs = front ++ back → I front done t →
      ∃ ys t', (back.mapM f).run t = .ok (ys,t') ∧ I xs (done ++ ys) t' from rest xs [] [] s rfl start
  intro back
  induction back with
  | nil =>
    intro front done t split holds
    rw [append_nil] at split
    exact ⟨[],t,rfl,by rw [append_nil,split]; exact holds⟩
  | cons x back ih =>
    intro front done t split holds
    obtain ⟨y,t',first,holds⟩ := step front x back done t split holds
    obtain ⟨ys,t'',later,holds⟩ := ih (front ++ [x]) (done ++ [y]) t' (by rw [split,append_assoc]; rfl) holds
    refine ⟨y :: ys,t'',run_mapM_cons_eq_ok.mpr ⟨y,t',ys,first,later,rfl⟩,?_⟩
    rwa [append_assoc] at holds

end Linkage
end Loom
