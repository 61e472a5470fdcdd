/-!
# Steps of a pass

A pass is made of steps that read and change a state and may fail; a failure
keeps the state as it was then. Applied to a state, such a step gives its
outcome and the state behind it.
-/

namespace JvmOptimizer.Steps

variable {ε σ α β : Type} {s s' : σ}

theorem bind_apply (x : ExceptT ε (StateM σ) α) (f : α → ExceptT ε (StateM σ) β) (s : σ) :
    (x >>= f) s = match x s with
      | (.ok a, s') => f a s'
      | (.error e, s') => (.error e, s') := by
  change (match x s with | (r, s') => ExceptT.bindCont f r s') = _
  cases x s with
  | mk r s' => cases r <;> rfl

@[simp]
theorem ok_eq_ok {a b : α} {s t : σ} :
    (show Id (Except ε α × σ) from (.ok a, s)) = (.ok b, t) ↔ a = b ∧ s = t := by
  constructor
  · intro h
    cases h
    exact ⟨rfl, rfl⟩
  · rintro ⟨rfl, rfl⟩
    rfl

@[simp]
theorem error_ne_ok {e : ε} {b : α} {s t : σ} :
    (show Id (Except ε α × σ) from (.error e, s)) ≠ (.ok b, t) := by
  intro h
  cases h

/-- Two steps succeed together if each does. -/
theorem bind_eq_ok {x : ExceptT ε (StateM σ) α} {f : α → ExceptT ε (StateM σ) β} {b : β} :
    (x >>= f) s = (.ok b, s') ↔ ∃ a t, x s = (.ok a, t) ∧ f a t = (.ok b, s') := by
  rw [bind_apply]
  cases hx : x s with
  | mk r t =>
      cases r with
      | error e =>
          constructor
          · intro h
            cases h
          · rintro ⟨a, t', h, -⟩
            cases h
      | ok a =>
          constructor
          · intro h
            exact ⟨a, t, rfl, h⟩
          · rintro ⟨a', t', h, hf⟩
            cases h
            exact hf

/-- Two steps fail together if one of them does. -/
theorem bind_eq_error {x : ExceptT ε (StateM σ) α} {f : α → ExceptT ε (StateM σ) β} {e : ε} :
    (x >>= f) s = (.error e, s') ↔
      x s = (.error e, s') ∨ ∃ a t, x s = (.ok a, t) ∧ f a t = (.error e, s') := by
  rw [bind_apply]
  cases hx : x s with
  | mk r t =>
      cases r with
      | error e' =>
          constructor
          · intro h
            cases h
            exact .inl rfl
          · rintro (h | ⟨a, t', h, -⟩)
            · cases h
              rfl
            · cases h
      | ok a =>
          constructor
          · intro h
            exact .inr ⟨a, t, rfl, h⟩
          · rintro (h | ⟨a', t', h, hf⟩)
            · cases h
            · cases h
              exact hf

@[simp]
theorem pure_apply (a : α) (s : σ) : (pure a : ExceptT ε (StateM σ) α) s = (.ok a, s) := rfl

@[simp]
theorem get_apply (s : σ) : (get : ExceptT ε (StateM σ) σ) s = (.ok s, s) := rfl

@[simp]
theorem set_apply (s t : σ) : (set t : ExceptT ε (StateM σ) PUnit) s = (.ok ⟨⟩, t) := rfl

@[simp]
theorem modify_apply (f : σ → σ) (s : σ) :
    (modify f : ExceptT ε (StateM σ) PUnit) s = (.ok ⟨⟩, f s) := rfl

@[simp]
theorem throw_apply (e : ε) (s : σ) : (throw e : ExceptT ε (StateM σ) α) s = (.error e, s) := rfl

theorem ofExcept_eq_ok {x : Except ε α} {a : α} :
    (ofExcept x : ExceptT ε (StateM σ) α) s = (.ok a, s') ↔ x = .ok a ∧ s = s' := by
  cases x with
  | error e =>
      constructor
      · intro h
        cases h
      · rintro ⟨h, -⟩
        cases h
  | ok b =>
      constructor
      · intro h
        cases h
        exact ⟨rfl, rfl⟩
      · rintro ⟨h, rfl⟩
        cases h
        rfl

theorem ofExcept_eq_error {x : Except ε α} {e : ε}
    (h : (ofExcept x : ExceptT ε (StateM σ) α) s = (.error e, s')) : x = .error e ∧ s = s' := by
  cases x with
  | error e' =>
      cases h
      exact ⟨rfl, rfl⟩
  | ok b => cases h

/-! ### Steps that may fail -/

theorem tryCatch_of_ok {x : ExceptT ε (StateM σ) α} {a : α} (h : x s = (.ok a, s'))
    (f : ε → ExceptT ε (StateM σ) α) : (tryCatch x f) s = (.ok a, s') := by
  simp only [tryCatch, tryCatchThe, MonadExceptOf.tryCatch, ExceptT.tryCatch, ExceptT.mk, bind,
    StateT.bind, h]
  rfl

theorem tryCatch_of_error {x : ExceptT ε (StateM σ) α} {e : ε} (h : x s = (.error e, s'))
    (f : ε → ExceptT ε (StateM σ) α) : (tryCatch x f) s = f e s' := by
  simp only [tryCatch, tryCatchThe, MonadExceptOf.tryCatch, ExceptT.tryCatch, ExceptT.mk, bind,
    StateT.bind, h]

/-- For closed terms: that a run succeeds can be decided without comparing states.
-/
theorem eq_ok_of_toOption {x : ExceptT ε (StateM σ) α} {a : α}
    (h : Except.toOption (x s).1 = some a) : x s = (.ok a, (x s).2) := by
  rcases hx : x s with ⟨e | b, t⟩ <;> rw [hx] at h <;> cases h
  rfl

/-- A step that gives nothing where it fails. -/
theorem tryCatch_some_of_ok {x : ExceptT ε (StateM σ) α} {a : α} (h : x s = (.ok a, s')) :
    (tryCatch (some <$> x) fun _ => pure none) s = (.ok (some a), s') := by
  refine tryCatch_of_ok ?_ _
  rw [map_eq_pure_bind, bind_apply, h]
  rfl

theorem tryCatch_some_of_error {x : ExceptT ε (StateM σ) α} {e : ε} (h : x s = (.error e, s')) :
    (tryCatch (some <$> x) fun _ => pure none) s = (.ok none, s') := by
  have hmap : (some <$> x) s = (.error e, s') := by
    rw [map_eq_pure_bind, bind_apply, h]
  rw [tryCatch_of_error hmap]
  rfl

theorem forM_nil (f : α → ExceptT ε (StateM σ) PUnit) : List.forM [] f = pure ⟨⟩ := rfl

theorem forM_cons (f : α → ExceptT ε (StateM σ) PUnit) (a : α) (l : List α) :
    List.forM (a :: l) f = f a >>= fun _ => l.forM f := rfl

theorem forM_append (f : α → ExceptT ε (StateM σ) PUnit) (l l' : List α) :
    List.forM (l ++ l') f = l.forM f >>= fun _ => l'.forM f := List.forM_append

/-- What each step of a loop takes from one member to the rest, a loop that
succeeds takes to the end. -/
theorem forM_induction {f : α → ExceptT ε (StateM σ) PUnit} {I : List α → σ → Prop}
    {l : List α} (hstep : ∀ a rest t t', I (a :: rest) t → f a t = (.ok ⟨⟩, t') → I rest t')
    (h : l.forM f s = (.ok ⟨⟩, s')) (hI : I l s) : I [] s' := by
  induction l generalizing s with
  | nil =>
      cases h
      exact hI
  | cons a l ih =>
      rw [forM_cons, bind_eq_ok] at h
      obtain ⟨⟨⟩, t, ha, h⟩ := h
      exact ih h (hstep a l s t hI ha)

/-- A loop whose steps all change nothing changes nothing. -/
theorem forM_eq_self {f : α → ExceptT ε (StateM σ) PUnit} {l : List α}
    (h : ∀ a ∈ l, f a s = (.ok ⟨⟩, s)) : l.forM f s = (.ok ⟨⟩, s) := by
  induction l with
  | nil => rfl
  | cons a l ih =>
      rw [List.forall_mem_cons] at h
      rw [forM_cons, bind_eq_ok]
      exact ⟨⟨⟩, s, h.1, ih h.2⟩

/-! ### Steps with results -/

theorem mapM_nil_apply (f : α → ExceptT ε (StateM σ) β) (s : σ) :
    List.mapM f [] s = (.ok [], s) := rfl

/-- A list of steps succeeds when its head does and then its tail, from the state
that the head leaves. -/
theorem mapM_cons_eq_ok {f : α → ExceptT ε (StateM σ) β} {a : α} {l : List α} {bs : List β} :
    List.mapM f (a :: l) s = (.ok bs, s') ↔ ∃ b t bs', f a s = (.ok b, t) ∧
      l.mapM f t = (.ok bs', s') ∧ bs = b :: bs' := by
  rw [List.mapM_cons, bind_eq_ok]
  constructor
  · rintro ⟨b, t, hb, h⟩
    obtain ⟨bs', t', hl, h⟩ := bind_eq_ok.1 h
    cases h
    exact ⟨b, t, bs', hb, hl, rfl⟩
  · rintro ⟨b, t, bs', hb, hl, rfl⟩
    exact ⟨b, t, hb, bind_eq_ok.2 ⟨bs', s', hl, rfl⟩⟩

/-- A step that succeeds hands its state over to the others. -/
theorem snd_mapM_cons {f : α → ExceptT ε (StateM σ) β} {a : α} {b : β} (l : List α)
    (h : f a s = (.ok b, s')) : (List.mapM f (a :: l) s).2 = (l.mapM f s').2 := by
  rw [List.mapM_cons]
  simp only [bind_apply, h]
  rcases l.mapM f s' with ⟨_ | bs, t⟩ <;> rfl

/-- A step that fails is the last one. -/
theorem mapM_cons_of_error {f : α → ExceptT ε (StateM σ) β} {a : α} {e : ε} (l : List α)
    (h : f a s = (.error e, s')) : List.mapM f (a :: l) s = (.error e, s') := by
  rw [List.mapM_cons, bind_apply, h]

/-- A step that succeeds does not save those behind it. -/
theorem mapM_cons_of_rest {f : α → ExceptT ε (StateM σ) β} {a : α} {b : β} {e : ε} {l : List α}
    {t : σ} (h : f a s = (.ok b, s')) (hrest : l.mapM f s' = (.error e, t)) :
    List.mapM f (a :: l) s = (.error e, t) := by
  rw [List.mapM_cons]
  simp only [bind_apply, h, hrest]

/-- What each step may do to the state, all of them together may do, also where
one of them fails. -/
theorem mapM_induction {f : α → ExceptT ε (StateM σ) β} {R : σ → σ → Prop}
    (hrefl : ∀ s, R s s) (htrans : ∀ {s t u}, R s t → R t u → R s u)
    (hstep : ∀ a s, R s (f a s).2) (l : List α) (s : σ) : R s (l.mapM f s).2 := by
  induction l generalizing s with
  | nil => exact hrefl s
  | cons a l ih =>
      have ha := hstep a s
      rw [List.mapM_cons, bind_apply]
      rcases hf : f a s with ⟨_ | b, t⟩
      · rwa [hf] at ha
      · rw [hf] at ha
        refine htrans ha ?_
        have hl := ih t
        simp only [bind_apply]
        rcases hm : l.mapM f t with ⟨_ | bs, u⟩
        · rwa [hm] at hl
        · rwa [hm] at hl

end JvmOptimizer.Steps
