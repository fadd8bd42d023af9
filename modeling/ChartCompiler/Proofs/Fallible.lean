import ChartCompiler.Warning

/-!
# Computations that may fail

What a computation gives when it succeeds: first for computations that only fail, then for steps of
a compilation, which report warnings as well.

Results:

* `bind_eq_ok`, `bind_eq_error`, `map_eq_ok`: a sequence succeeds iff both parts do.
* `mapM_eq_ok`, `mapM_eq_error`: a list is gone through up to the first failure.
* `foldlM_ok`: a fold succeeds if every step keeps what holds of the rest of the list.
* `inv_of_foldlM`: what every step of a fold keeps holds at its end.
* `CompileM.outcome_bind`: when a sequence of steps succeeds.
* `CompileM.outcome_mapM`: when the same step for every item of a list does.
* `CompileM.inv_of_foldlM`: what every step of a fold keeps, for folds of a compilation.
-/

namespace ChartCompiler

universe u v w

variable {ε : Type u} {α : Type v} {β : Type w}

theorem bind_eq_ok {α β : Type v} {x : Except ε α} {f : α → Except ε β} {b : β} :
    (x >>= f) = .ok b ↔ ∃ a, x = .ok a ∧ f a = .ok b := by
  cases x with
  | error e => simp [bind, Except.bind]
  | ok a => simp [bind, Except.bind]

theorem bind_eq_error {α β : Type v} {x : Except ε α} {f : α → Except ε β} {e : ε} :
    (x >>= f) = .error e ↔ x = .error e ∨ ∃ a, x = .ok a ∧ f a = .error e := by
  cases x with
  | error e => simp [bind, Except.bind]
  | ok a => simp [bind, Except.bind]

theorem map_eq_ok {β : Type w} {x : Except ε α} {f : α → β} {b : β} :
    x.map f = .ok b ↔ ∃ a, x = .ok a ∧ f a = b := by
  cases x with
  | error e => simp [Except.map]
  | ok a => simp [Except.map]

theorem mapError_eq_ok {ε' : Type w} {x : Except ε α} {f : ε → ε'} {a : α} :
    x.mapError f = .ok a ↔ x = .ok a := by
  cases x with
  | error e => exact ⟨(nomatch ·), (nomatch ·)⟩
  | ok b => exact ⟨fun h => congrArg _ (Except.ok.inj h), fun h => congrArg _ (Except.ok.inj h)⟩

/-- What is made of a result adds no failure. -/
theorem bind_pure_eq_error {α β : Type v} {x : Except ε α} {g : α → β} {e : ε} :
    (x >>= fun a => pure (g a)) = .error e ↔ x = .error e := by
  cases x with
  | error e => simp [bind, Except.bind]
  | ok a => simp [bind, Except.bind, pure, Except.pure]

/-- A computation whose result is looked at succeeds. -/
theorem exists_ok_of_toOption {β : Type w} {x : Except ε α} {f : α → β} {b : β}
    (h : x.toOption.map f = some b) : ∃ a, x = .ok a ∧ f a = b := by
  cases x with
  | error e => cases h
  | ok a => exact ⟨a, rfl, Option.some.inj h⟩

theorem toOption_eq_some {x : Except ε α} {a : α} : x.toOption = some a ↔ x = .ok a := by
  cases x with
  | error e => exact ⟨(nomatch ·), (nomatch ·)⟩
  | ok b => exact ⟨fun h => congrArg _ (Option.some.inj h), fun h => congrArg _ (Except.ok.inj h)⟩

theorem exists_ok_of_isSome {x : Except ε α} (h : x.toOption.isSome = true) :
    ∃ a, x = .ok a := by
  cases x with
  | error e => cases h
  | ok a => exact ⟨a, rfl⟩

theorem mapM_eq_ok {α β : Type v} {f : α → Except ε β} {l : List α} {r : List β} :
    l.mapM f = .ok r ↔ l.map f = r.map .ok := by
  induction l generalizing r with
  | nil => cases r <;> simp [pure, Except.pure]
  | cons a rest ih =>
    rw [List.mapM_cons, bind_eq_ok, List.map_cons]
    constructor
    · rintro ⟨b, hb, h⟩
      obtain ⟨bs, hbs, h⟩ := bind_eq_ok.1 h
      cases h
      rw [List.map_cons, hb, ih.1 hbs]
    · intro h
      cases r with
      | nil => simp at h
      | cons b bs =>
        rw [List.map_cons, List.cons.injEq] at h
        exact ⟨b, h.1, bind_eq_ok.2 ⟨bs, ih.2 h.2, rfl⟩⟩

theorem mapM_eq_error {α β : Type v} {f : α → Except ε β} {l : List α} {e : ε}
    (h : l.mapM f = .error e) : ∃ a ∈ l, f a = .error e := by
  induction l with
  | nil => simp [pure, Except.pure] at h
  | cons a rest ih =>
    rw [List.mapM_cons] at h
    rcases bind_eq_error.1 h with h | ⟨b, -, h⟩
    · exact ⟨a, by simp, h⟩
    · rcases bind_eq_error.1 h with h | ⟨bs, -, h⟩
      · obtain ⟨a', ha', hf⟩ := ih h
        exact ⟨a', by simp [ha'], hf⟩
      · cases h

/-- A fold succeeds if every step does and keeps an invariant of the items that are left and of what
is there so far. -/
theorem foldlM_ok {f : β → α → Except ε β} (inv : List α → β → Prop)
    (step : ∀ b a rest, inv (a :: rest) b → ∃ b', f b a = .ok b' ∧ inv rest b') {l : List α} :
    ∀ {b : β}, inv l b → ∃ b', l.foldlM f b = .ok b' ∧ inv [] b' := by
  induction l with
  | nil => exact fun h => ⟨_, rfl, h⟩
  | cons a rest ih =>
    intro b h
    obtain ⟨b', hb', hinv⟩ := step b a rest h
    obtain ⟨b'', hb'', hinv'⟩ := ih hinv
    exact ⟨b'', by rw [List.foldlM_cons, hb']; exact hb'', hinv'⟩

/-- What every step of a fold keeps holds at its end, if it comes to one. -/
theorem inv_of_foldlM {f : β → α → Except ε β} {inv : β → Prop}
    (step : ∀ b a b', inv b → f b a = .ok b' → inv b') {l : List α} :
    ∀ {b b' : β}, inv b → l.foldlM f b = .ok b' → inv b' := by
  induction l with
  | nil =>
    intro b b' hb h
    cases h
    exact hb
  | cons a rest ih =>
    intro b b' hb h
    rw [List.foldlM_cons] at h
    cases ha : f b a with
    | error e =>
      rw [ha] at h
      cases h
    | ok mid =>
      rw [ha] at h
      exact ih (step b a mid hb ha) h

/-! ## Steps of a compilation -/

/-- Not an instance, so that simp leaves steps as they are written. -/
theorem Noted.lawfulMonad : LawfulMonad Noted := LawfulMonad.mk' _
  (fun x => by cases x; simp [Functor.map])
  (fun a f => by simp [bind, pure])
  (fun x f g => by simp [bind])

/-- What every step of a fold that reports keeps of a value. -/
theorem Noted.inv_of_foldlM {α β : Type} {f : β → α → Noted β} (inv : β → Prop) {l : List α}
    (step : ∀ b, ∀ a ∈ l, inv b → inv (f b a).value) {b : β} (h : inv b) :
    inv (l.foldlM f b).value := by
  induction l generalizing b with
  | nil => exact h
  | cons a rest ih =>
    rw [List.foldlM_cons, Noted.value_bind]
    exact ih (fun b a' ha => step b a' (List.mem_cons_of_mem _ ha))
      (step b a List.mem_cons_self h)

namespace CompileM

variable {α β : Type}

/-- The outcome of a sequence is the sequence of the outcomes. -/
theorem outcome_bind_eq (x : CompileM α) (f : α → CompileM β) :
    (x >>= f).outcome = x.outcome >>= fun a => (f a).outcome := by
  have hbind : (x >>= f).outcome = (ExceptT.bindCont f (ExceptT.run x).value).value := rfl
  rw [hbind, outcome]
  cases (ExceptT.run x).value <;> rfl

theorem outcome_mapM_eq (f : α → CompileM β) (l : List α) :
    (l.mapM f).outcome = l.mapM fun a => (f a).outcome := by
  have := Noted.lawfulMonad
  induction l with
  | nil => rfl
  | cons a rest ih =>
    simp only [List.mapM_cons, outcome_bind_eq, ih]
    rfl

theorem outcome_bind {x : CompileM α} {f : α → CompileM β} {b : β} :
    (x >>= f).outcome = .ok b ↔ ∃ a, x.outcome = .ok a ∧ (f a).outcome = .ok b := by
  rw [outcome_bind_eq, bind_eq_ok]

theorem outcome_mapM {f : α → CompileM β} {l : List α} {r : List β} :
    (l.mapM f).outcome = .ok r ↔ l.map (fun a => (f a).outcome) = r.map .ok := by
  rw [outcome_mapM_eq, mapM_eq_ok]

/-- Each result of a sequence is that of one of its items. -/
theorem exists_of_mem_mapM {f : α → CompileM β} {l : List α} {r : List β}
    (h : (l.mapM f).outcome = .ok r) {b : β} (hb : b ∈ r) : ∃ a ∈ l, (f a).outcome = .ok b :=
  List.mem_map.1 (outcome_mapM.1 h ▸ List.mem_map_of_mem hb)

/-- Each item of a sequence has its result. -/
theorem exists_mem_of_mapM {f : α → CompileM β} {l : List α} {r : List β}
    (h : (l.mapM f).outcome = .ok r) {a : α} (ha : a ∈ l) : ∃ b ∈ r, (f a).outcome = .ok b := by
  have hmem : (f a).outcome ∈ r.map .ok := outcome_mapM.1 h ▸ List.mem_map_of_mem ha
  obtain ⟨b, hb, heq⟩ := List.mem_map.1 hmem
  exact ⟨b, hb, heq.symm⟩

/-- A fold over two lists goes through the first and then through the second. -/
theorem outcome_foldlM_append {f : β → α → CompileM β} {l more : List α} {b b' : β} :
    ((l ++ more).foldlM f b).outcome = .ok b' ↔
      ∃ mid, (l.foldlM f b).outcome = .ok mid ∧ (more.foldlM f mid).outcome = .ok b' := by
  induction l generalizing b with
  | nil => exact ⟨fun h => ⟨b, rfl, h⟩, fun ⟨_, hmid, h⟩ => Except.ok.inj hmid ▸ h⟩
  | cons a rest ih =>
    simp only [List.cons_append, List.foldlM_cons, outcome_bind, ih]
    constructor
    · rintro ⟨c, hc, mid, hmid, h⟩
      exact ⟨mid, ⟨c, hc, hmid⟩, h⟩
    · rintro ⟨mid, ⟨c, hc, hmid⟩, h⟩
      exact ⟨c, hc, mid, hmid, h⟩

/-- What every step of a fold keeps holds at its end, if it comes to one. -/
theorem inv_of_foldlM {f : β → α → CompileM β} (inv : β → Prop) {l : List α}
    (step : ∀ b, ∀ a ∈ l, ∀ b', inv b → (f b a).outcome = .ok b' → inv b') {b b' : β} (hb : inv b)
    (h : (l.foldlM f b).outcome = .ok b') : inv b' := by
  induction l generalizing b with
  | nil =>
    cases h
    exact hb
  | cons a rest ih =>
    rw [List.foldlM_cons] at h
    obtain ⟨mid, hmid, h⟩ := outcome_bind.1 h
    exact ih (fun b a' ha => step b a' (List.mem_cons_of_mem _ ha))
      (step b a List.mem_cons_self mid hb hmid) h

end CompileM

end ChartCompiler
