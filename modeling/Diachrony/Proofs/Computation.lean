import Mathlib.Data.List.Forall2

/-!
# Computations that may fail

What a computation in several steps gives, and what it fails with, in terms of its steps.  Two
runs of a program agree if both fail, or both succeed with related results; runs that are put
together from agreeing steps agree, so what two texts have in common is carried through the stages
one after another.
-/

namespace Diachrony

variable {ε δ α β γ κ : Type}

/-! ## Computations that succeed -/

theorem ok_bind (a : α) (f : α → Except ε β) : Except.ok a >>= f = f a := rfl

theorem bind_eq_ok {x : Except ε α} {f : α → Except ε β} {b : β} :
    x >>= f = .ok b ↔ ∃ a, x = .ok a ∧ f a = .ok b := by
  cases x with
  | error failure => simp [bind, Except.bind]
  | ok a => simp [bind, Except.bind]

theorem map_eq_ok {x : Except ε α} {f : α → β} {b : β} :
    x.map f = .ok b ↔ ∃ a, x = .ok a ∧ f a = b := by
  cases x with
  | error failure => simp [Except.map]
  | ok a => simp [Except.map]

theorem mapError_eq_ok {f : ε → δ} {x : Except ε α} {a : α} :
    x.mapError f = .ok a ↔ x = .ok a := by
  cases x with
  | error failure =>
      constructor
      · intro h
        cases h
      · intro h
        cases h
  | ok b =>
      constructor
      · intro h
        exact congrArg Except.ok (Except.ok.inj h)
      · intro h
        exact congrArg Except.ok (Except.ok.inj h)

/-- Going through a list succeeds with what its elements give one by one. -/
theorem mapM_eq_ok_iff {f : α → Except ε β} {inputs : List α} {results : List β} :
    inputs.mapM f = .ok results ↔ List.Forall₂ (fun a b => f a = .ok b) inputs results := by
  induction inputs generalizing results with
  | nil =>
      rw [List.mapM_nil, List.forall₂_nil_left_iff]
      exact ⟨fun h => (Except.ok.inj h).symm, fun h => h ▸ rfl⟩
  | cons a rest ih =>
      rw [List.mapM_cons]
      constructor
      · intro h
        obtain ⟨first, hfirst, h⟩ := bind_eq_ok.1 h
        obtain ⟨others, hothers, h⟩ := bind_eq_ok.1 h
        cases h
        exact .cons hfirst (ih.1 hothers)
      · intro h
        cases h with
        | cons hfirst hothers => rw [hfirst, ok_bind, ih.2 hothers, ok_bind]; rfl

theorem exists_left_of_forall₂ {related : α → β → Prop} {as : List α} {bs : List β}
    (h : List.Forall₂ related as bs) {b : β} (hmem : b ∈ bs) : ∃ a ∈ as, related a b := by
  induction h with
  | nil => simp at hmem
  | cons hfirst hothers ih =>
      rcases List.mem_cons.1 hmem with rfl | hmem
      · exact ⟨_, List.mem_cons_self, hfirst⟩
      · obtain ⟨other, hother, hrelated⟩ := ih hmem
        exact ⟨other, List.mem_cons_of_mem _ hother, hrelated⟩

theorem exists_right_of_forall₂ {related : α → β → Prop} {as : List α} {bs : List β}
    (h : List.Forall₂ related as bs) {a : α} (hmem : a ∈ as) : ∃ b ∈ bs, related a b := by
  have hflip : List.Forall₂ (flip related) bs as := h.flip
  exact exists_left_of_forall₂ hflip hmem

theorem exists_of_mem_mapM {f : α → Except ε β} {inputs : List α} {results : List β}
    (h : inputs.mapM f = .ok results) {b : β} (hmem : b ∈ results) :
    ∃ a ∈ inputs, f a = .ok b :=
  exists_left_of_forall₂ (mapM_eq_ok_iff.1 h) hmem

/-- Going through a list leaves as it is whatever its steps leave as it is. -/
theorem map_eq_map_of_mapM {f : α → Except ε β} {inputs : List α} {results : List β}
    {see : α → γ} {seeResult : β → γ} (h : inputs.mapM f = .ok results)
    (hstep : ∀ a b, f a = .ok b → see a = seeResult b) :
    inputs.map see = results.map seeResult := by
  have hall := mapM_eq_ok_iff.1 h
  clear h
  induction hall with
  | nil => rfl
  | cons hfirst hothers ih => rw [List.map_cons, List.map_cons, hstep _ _ hfirst, ih]

theorem of_foldlM (holds : γ → Prop) {step : γ → α → Except ε γ}
    {inputs : List α} {start result : γ} (hstart : holds start)
    (hstep : ∀ a ∈ inputs, ∀ state next, holds state → step state a = .ok next → holds next)
    (h : inputs.foldlM step start = .ok result) : holds result := by
  induction inputs generalizing start with
  | nil =>
      cases h
      exact hstart
  | cons a rest ih =>
      obtain ⟨hfirst, hlater⟩ := List.forall_mem_cons.1 hstep
      rw [List.foldlM_cons] at h
      obtain ⟨next, hnext, h⟩ := bind_eq_ok.1 h
      exact ih (hfirst start next hstart hnext) hlater h

/-! ## Computations that fail -/

theorem bind_eq_error {x : Except ε α} {f : α → Except ε β} {failure : ε} :
    x >>= f = .error failure ↔ x = .error failure ∨ ∃ a, x = .ok a ∧ f a = .error failure := by
  cases x with
  | error other => simp [bind, Except.bind]
  | ok a => simp [bind, Except.bind]

theorem exists_of_foldlM_eq_error {step : γ → α → Except ε γ} {inputs : List α} {start : γ}
    {failure : ε} (h : inputs.foldlM step start = .error failure) :
    ∃ a ∈ inputs, ∃ state, step state a = .error failure := by
  induction inputs generalizing start with
  | nil => cases h
  | cons a rest ih =>
      rw [List.foldlM_cons] at h
      rcases bind_eq_error.1 h with hfirst | ⟨next, -, hrest⟩
      · exact ⟨a, List.mem_cons_self, start, hfirst⟩
      · obtain ⟨other, hother, state, hstep⟩ := ih hrest
        exact ⟨other, List.mem_cons_of_mem a hother, state, hstep⟩

theorem exists_of_mapM_eq_error {f : α → Except ε β} {inputs : List α} {failure : ε}
    (h : inputs.mapM f = .error failure) : ∃ a ∈ inputs, f a = .error failure := by
  induction inputs with
  | nil => cases h
  | cons a rest ih =>
      rw [List.mapM_cons] at h
      rcases bind_eq_error.1 h with hfirst | ⟨first, -, hrest⟩
      · exact ⟨a, List.mem_cons_self, hfirst⟩
      · rcases bind_eq_error.1 hrest with hrest | ⟨others, -, hdone⟩
        · obtain ⟨other, hother, hfailure⟩ := ih hrest
          exact ⟨other, List.mem_cons_of_mem a hother, hfailure⟩
        · cases hdone

/-! ## Computations that agree -/

/-- Whether two computations both fail, or both succeed with related results. -/
inductive Agree (related : α → β → Prop) : Except ε α → Except δ β → Prop
  | ok {a : α} {b : β} (h : related a b) : Agree related (.ok a) (.ok b)
  | error (failure : ε) (other : δ) : Agree related (.error failure) (.error other)

namespace Agree

variable {related : α → β → Prop} {later : γ → κ → Prop}

theorem refl (x : Except ε α) : Agree Eq x x := by
  cases x with
  | error failure => exact .error failure failure
  | ok a => exact .ok rfl

theorem mono {weaker : α → β → Prop} (hweaker : ∀ a b, related a b → weaker a b)
    {x : Except ε α} {y : Except δ β} (h : Agree related x y) : Agree weaker x y := by
  cases h with
  | ok hab => exact .ok (hweaker _ _ hab)
  | error failure other => exact .error failure other

theorem keep {x : Except ε α} {y : Except δ β} (h : Agree related x y) :
    Agree (fun a b => x = .ok a ∧ y = .ok b ∧ related a b) x y := by
  cases h with
  | ok hab => exact .ok ⟨rfl, rfl, hab⟩
  | error failure other => exact .error failure other

theorem exists_of_ok_left {a : α} {y : Except δ β}
    (h : Agree related (.ok a : Except ε α) y) : ∃ b, y = .ok b ∧ related a b := by
  cases h with
  | ok hab => exact ⟨_, rfl, hab⟩

theorem exists_of_ok_right {x : Except ε α} {b : β}
    (h : Agree related x (.ok b : Except δ β)) : ∃ a, x = .ok a ∧ related a b := by
  cases h with
  | ok hab => exact ⟨_, rfl, hab⟩

/-- Agreement is what either computation says about the other one when it succeeds. -/
theorem of_forall {x : Except ε α} {y : Except δ β}
    (hleft : ∀ a, x = .ok a → ∃ b, y = .ok b ∧ related a b)
    (hright : ∀ b, y = .ok b → ∃ a, x = .ok a ∧ related a b) : Agree related x y := by
  cases x with
  | ok a =>
      obtain ⟨b, rfl, hab⟩ := hleft a rfl
      exact .ok hab
  | error failure =>
      cases y with
      | error other => exact .error failure other
      | ok b =>
          obtain ⟨a, ha, -⟩ := hright b rfl
          cases ha

theorem bind {x : Except ε α} {y : Except δ β} {f : α → Except ε γ} {g : β → Except δ κ}
    (h : Agree related x y) (hnext : ∀ a b, related a b → Agree later (f a) (g b)) :
    Agree later (x >>= f) (y >>= g) := by
  cases h with
  | ok hab => exact hnext _ _ hab
  | error failure other => exact .error failure other

theorem bind_same (x : Except ε α) {f : α → Except ε γ} {g : α → Except ε κ}
    (hnext : ∀ a, Agree later (f a) (g a)) : Agree later (x >>= f) (x >>= g) :=
  (refl x).bind fun a _ hsame => hsame ▸ hnext a

theorem map {x : Except ε α} {y : Except δ β} {f : α → γ} {g : β → κ}
    (h : Agree related x y) (hnext : ∀ a b, related a b → later (f a) (g b)) :
    Agree later (x.map f) (y.map g) := by
  cases h with
  | ok hab => exact .ok (hnext _ _ hab)
  | error failure other => exact .error failure other

theorem mapError {ε' δ' : Type} {x : Except ε α} {y : Except δ β} (h : Agree related x y)
    (f : ε → ε') (g : δ → δ') : Agree related (x.mapError f) (y.mapError g) := by
  cases h with
  | ok hab => exact .ok hab
  | error failure other => exact .error (f failure) (g other)

theorem foldlM {inputs : List α} {others : List β} {step : γ → α → Except ε γ}
    {otherStep : κ → β → Except δ κ} {start : γ} {otherStart : κ}
    (hinputs : List.Forall₂ related inputs others) (hstart : later start otherStart)
    (hstep : ∀ a b, related a b → ∀ state other, later state other →
      Agree later (step state a) (otherStep other b)) :
    Agree later (inputs.foldlM step start) (others.foldlM otherStep otherStart) := by
  induction hinputs generalizing start otherStart with
  | nil => exact .ok hstart
  | cons hab hrest ih =>
      rw [List.foldlM_cons, List.foldlM_cons]
      exact (hstep _ _ hab _ _ hstart).bind fun _ _ hnext => ih hnext

theorem mapM {inputs : List α} {others : List β} {f : α → Except ε γ} {g : β → Except δ κ}
    (hinputs : List.Forall₂ related inputs others)
    (hresult : ∀ a b, related a b → Agree later (f a) (g b)) :
    Agree (List.Forall₂ later) (inputs.mapM f) (others.mapM g) := by
  induction hinputs with
  | nil => exact .ok .nil
  | cons hab hrest ih =>
      rw [List.mapM_cons, List.mapM_cons]
      exact (hresult _ _ hab).bind fun _ _ hfirst =>
        ih.bind fun _ _ hothers => .ok (.cons hfirst hothers)

theorem mapM_same {f : α → Except ε γ} {g : α → Except δ γ} (h : ∀ a, Agree Eq (f a) (g a))
    (inputs : List α) : Agree Eq (inputs.mapM f) (inputs.mapM g) := by
  induction inputs with
  | nil => exact .ok rfl
  | cons a rest ih =>
      rw [List.mapM_cons, List.mapM_cons]
      refine (h a).bind fun first _ hfirst => ih.bind fun others _ hothers => .ok ?_
      rw [hfirst, hothers]

theorem mapM_map {f : α → Except ε γ} {g : β → Except δ κ} {move : α → β} {moveResult : γ → κ}
    (h : ∀ a, Agree (fun result moved => moved = moveResult result) (f a) (g (move a)))
    (inputs : List α) :
    Agree (fun results moved => moved = results.map moveResult)
      (inputs.mapM f) ((inputs.map move).mapM g) := by
  induction inputs with
  | nil => exact .ok rfl
  | cons a rest ih =>
      rw [List.map_cons, List.mapM_cons, List.mapM_cons]
      refine (h a).bind fun first moved hfirst => ih.bind fun others movedOthers hothers => .ok ?_
      rw [hfirst, hothers, List.map_cons]

/-- Computations with equal results show the same to whoever does not look at errors. -/
theorem toOption_eq {x : Except ε α} {y : Except δ α} (h : Agree Eq x y) :
    x.toOption = y.toOption := by
  cases h with
  | ok hab => exact congrArg some hab
  | error failure other => rfl

end Agree

end Diachrony
