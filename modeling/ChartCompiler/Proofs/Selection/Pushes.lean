import ChartCompiler.Proofs.Selection.Names

/-!
# Signals of a selection that are pushed outwards

Of the behaviours of a selection only the binding to scales pushes signals out of their scope, and
only in a view that stands in another one. It pushes the extents that drive a scale, as far as the
interval declares them; no behaviour that takes effect later pushes another one or takes a push
back.

Results:

* `Selection.pushed_applyBehaviours`: behaviours other than the binding to scales push nothing.
* `Selection.mem_pushed_signals`: the signals of a selection that are pushed.
-/

namespace ChartCompiler

/-! ## Pushed signals of a list -/

namespace Signal

/-- The names of the signals that are pushed outwards. -/
def pushed (signals : List Signal) : List String :=
  (signals.filter fun s => s.push.isSome).map name

theorem mem_pushed {n : String} {signals : List Signal} :
    n ∈ pushed signals ↔ ∃ s ∈ signals, s.push.isSome = true ∧ s.name = n := by
  simp [pushed, and_assoc]

theorem pushed_cons (s : Signal) (signals : List Signal) :
    pushed (s :: signals) = (if s.push.isSome then [s.name] else []) ++ pushed signals := by
  unfold pushed
  rw [List.filter_cons]
  split <;> rfl

theorem pushed_append (signals more : List Signal) :
    pushed (signals ++ more) = pushed signals ++ pushed more := by
  simp [pushed]

theorem pushed_eq_nil {signals : List Signal} (h : ∀ s ∈ signals, s.push = none) :
    pushed signals = [] := by
  rw [pushed, List.map_eq_nil_iff, List.filter_eq_nil_iff]
  intro s hs
  simp [h s hs]

/-- Signals that are not pushed change nothing behind others. -/
theorem pushed_append_of_none {more : List Signal} (h : ∀ s ∈ more, s.push = none)
    (signals : List Signal) : pushed (signals ++ more) = pushed signals := by
  rw [pushed_append, pushed_eq_nil h, List.append_nil]

/-- A change that keeps the name and the push of a signal keeps what is pushed. -/
theorem pushed_mapFirst {n : String} {f : Signal → Signal}
    (hf : ∀ s, (f s).name = s.name ∧ (f s).push = s.push) (signals : List Signal) :
    pushed (mapFirst n f signals) = pushed signals := by
  induction signals with
  | nil => rfl
  | cons s rest ih =>
    unfold mapFirst
    split
    · rw [pushed_cons, pushed_cons, (hf s).1, (hf s).2]
    · rw [pushed_cons, pushed_cons, ih]

/-- A change that pushes the first signal of a name adds that name, if there is one. -/
theorem mem_pushed_mapFirst {m n : String} {f : Signal → Signal}
    (hf : ∀ s, (f s).name = s.name ∧ (f s).push.isSome = true) (signals : List Signal) :
    n ∈ pushed (mapFirst m f signals) ↔
      n ∈ pushed signals ∨ n = m ∧ m ∈ signals.map name := by
  induction signals with
  | nil => simp [mapFirst, pushed]
  | cons s rest ih =>
    unfold mapFirst
    split
    · next hs =>
      subst hs
      rw [pushed_cons, pushed_cons, (hf s).1, if_pos (hf s).2, List.map_cons]
      by_cases hpush : s.push.isSome = true <;> simp [hpush, or_comm]
    · next hs =>
      rw [pushed_cons, pushed_cons, List.mem_append, List.mem_append, ih, List.map_cons,
        List.mem_cons, or_assoc]
      simp [Ne.symm hs]

/-- Pushing the first signals of several names. -/
theorem mem_pushed_foldl {α : Type} {n : String} {names : α → String} {f : Signal → Signal}
    (hf : ∀ s, (f s).name = s.name ∧ (f s).push.isSome = true) (l : List α) :
    ∀ signals, n ∈ pushed (l.foldl (fun signals a => mapFirst (names a) f signals) signals) ↔
      n ∈ pushed signals ∨ n ∈ l.map names ∧ n ∈ signals.map name := by
  induction l with
  | nil => simp
  | cons a rest ih =>
    intro signals
    rw [List.foldl_cons, ih, mem_pushed_mapFirst hf, map_name_mapFirst (fun s => (hf s).1),
      List.map_cons, List.mem_cons]
    by_cases ha : n = names a
    · rw [ha]
      grind
    · simp [ha]

/-- A fold whose steps keep what is pushed keeps it. -/
theorem pushed_foldl {α : Type} {f : List Signal → α → List Signal}
    (hf : ∀ signals a, pushed (f signals a) = pushed signals) (l : List α) :
    ∀ signals, pushed (l.foldl f signals) = pushed signals := by
  induction l with
  | nil => exact fun _ => rfl
  | cons a rest ih => exact fun signals => (ih _).trans (hf signals a)

end Signal

/-! ## Signals that come with the type -/

namespace Selection

variable {u : UnitAt} {s : Selection}

/-- No signal that comes with the type of a selection is pushed. -/
theorem push_ownSignals {own : List Signal} (h : (s.ownSignals u).outcome = .ok own) :
    ∀ signal ∈ own, signal.push = none := by
  cases htype : s.type with
  | single | multi =>
    simp only [ownSignals, htype] at h
    cases h
    simp [PointTuple.signals, Signal.named]
  | interval =>
    simp only [ownSignals, htype] at h
    obtain ⟨streams, rfl⟩ := outcome_intervalSignals h
    have hextents : ∀ c, ∀ signal ∈ Interval.channelSignals u s c streams, signal.push = none := by
      intro c
      unfold Interval.channelSignals
      split <;> simp [Signal.named]
    intro signal hsignal
    rcases List.mem_append.1 hsignal with hsignal | hsignal
    · rcases List.mem_append.1 hsignal with hsignal | hsignal
      · obtain ⟨p, -, hsignal⟩ := List.mem_flatMap.1 hsignal
        exact hextents p.1 signal hsignal
      · split at hsignal
        · cases hsignal
        · obtain rfl := List.mem_singleton.1 hsignal
          rfl
    · obtain rfl := List.mem_singleton.1 hsignal
      rfl

/-! ## Behaviours -/

theorem pushed_addHandler (u : UnitAt) (s : Selection) (c : Channel) (delta update : String)
    (signals : List Signal) :
    Signal.pushed (Gesture.addHandler u s c delta update signals) = Signal.pushed signals := by
  refine Signal.pushed_mapFirst (fun signal => ?_) signals
  exact ⟨rfl, rfl⟩

theorem pushed_reset (streams : List EventStream) (name value : String) (signals : List Signal) :
    Signal.pushed (Clear.reset streams name value signals) = Signal.pushed signals := by
  refine Signal.pushed_mapFirst (fun signal => ?_) signals
  split <;> exact ⟨rfl, rfl⟩

theorem pushed_clear (s : Selection) (signals : List Signal) :
    Signal.pushed (Clear.signals s signals) = Signal.pushed signals := by
  unfold Clear.signals
  split
  · rfl
  · next streams _ =>
    split
    · refine Signal.pushed_foldl (fun signals c => ?_) _ signals
      simp only [Clear.resetChannel]
      split <;> exact pushed_reset ..
    · rw [pushed_reset, pushed_reset]

/-- Every behaviour but the binding to scales keeps what is pushed. -/
theorem pushed_applyBehaviour {signals after : List Signal} {b : Behaviour} (hb : b ≠ .scales)
    (h : (s.applyBehaviour u signals b).outcome = .ok after) :
    Signal.pushed after = Signal.pushed signals := by
  cases b with
  | project | nearest =>
    cases h
    rfl
  | toggle =>
    cases h
    exact Signal.pushed_append_of_none (by simp [Toggle.signal, Signal.named]) signals
  | scales => exact absurd rfl hb
  | inputs =>
    cases h
    refine Signal.pushed_mapFirst (fun signal => ?_) signals
    exact ⟨rfl, rfl⟩
  | clear =>
    cases h
    exact pushed_clear s signals
  | translate =>
    obtain ⟨streams, -, h⟩ := CompileM.outcome_bind.1 h
    cases h
    rw [Signal.pushed_foldl fun _ _ => pushed_addHandler ..]
    exact Signal.pushed_append_of_none (by simp [Drag.anchor, Drag.delta, Signal.named]) signals
  | zoom =>
    obtain ⟨streams, -, h⟩ := CompileM.outcome_bind.1 h
    cases h
    rw [Signal.pushed_foldl fun _ _ => pushed_addHandler ..]
    exact Signal.pushed_append_of_none (by simp [Wheel.anchor, Wheel.delta, Signal.named]) signals

theorem pushed_applyBehaviours {bs : List Behaviour} (hbs : .scales ∉ bs)
    {signals after : List Signal} (h : (bs.foldlM (s.applyBehaviour u) signals).outcome = .ok after) :
    Signal.pushed after = Signal.pushed signals := by
  refine CompileM.inv_of_foldlM (Signal.pushed · = Signal.pushed signals)
    (fun mid b hb next hmid hnext => ?_) rfl h
  exact (pushed_applyBehaviour (ne_of_mem_of_not_mem hb hbs) hnext).trans hmid

/-- What the binding to scales pushes: the extents that drive scales, if they are declared. -/
theorem mem_pushed_push {n : String} (hu : u.hasParent = true) {signals : List Signal}
    (hnone : ∀ signal ∈ signals, signal.push = none) :
    n ∈ Signal.pushed (BoundScales.push u s signals) ↔
      n ∈ s.scales.map (s.channelSignal · .data) ∧ n ∈ signals.map Signal.name := by
  unfold BoundScales.push
  rw [if_pos hu, Signal.mem_pushed_foldl fun signal => ?_, Signal.pushed_eq_nil hnone]
  · simp
  · exact ⟨rfl, rfl⟩

/-- A selection that drives scales binds them first of all. -/
theorem behaviours_of_scales (h : s.has .scales = true) :
    s.behaviours = .project :: .scales ::
      [Behaviour.translate, .zoom, .inputs, .nearest, .clear].filter s.has := by
  have htype : s.type = .interval := by
    simp only [has, Bool.and_eq_true, beq_iff_eq] at h
    exact h.1.1
  have htoggle : s.has .toggle = false := by simp [has, htype]
  rw [behaviours, Behaviour.all, List.filter_cons_of_pos rfl,
    List.filter_cons_of_neg (by simp [htoggle]), List.filter_cons_of_pos h]

/-- The names of the signals of a selection that are pushed: the extents that drive scales, as far
as they are extents along positions or have the name of another signal of the interval. -/
def pushes (u : UnitAt) (s : Selection) : List String :=
  if u.hasParent && s.has .scales then
    (s.scales.map (s.channelSignal · .data)).filter
      (· ∈ s.tupleName :: s.extents.map (s.channelSignal · .data))
  else []

theorem mem_pushed_signals {signals : List Signal} (hs : Text.IsName s.name)
    (h : (s.signals u).outcome = .ok signals) {n : String} :
    n ∈ Signal.pushed signals ↔ n ∈ s.pushes u := by
  obtain ⟨own, hown, h⟩ := CompileM.outcome_bind.1 h
  obtain ⟨decorated, hdecorated, h⟩ := CompileM.outcome_bind.1 h
  cases h
  have hnone := push_ownSignals hown
  rw [Signal.pushed_append_of_none (by simp [modifySignal, Signal.named])]
  cases hscales : s.has .scales with
  | false =>
    have hbehaviours : Behaviour.scales ∉ s.behaviours := by
      rw [mem_behaviours, hscales]
      exact Bool.false_ne_true
    rw [pushed_applyBehaviours hbehaviours hdecorated, Signal.pushed_eq_nil hnone]
    simp [pushes, hscales]
  | true =>
    rw [behaviours_of_scales hscales] at hdecorated
    -- the projection comes first and changes nothing, so the push sees the interval's own signals
    have hlater : Signal.pushed decorated = Signal.pushed (BoundScales.push u s own) := by
      obtain ⟨_, hproject, hdecorated⟩ := CompileM.outcome_bind.1 hdecorated
      cases hproject
      obtain ⟨_, hpush, hdecorated⟩ := CompileM.outcome_bind.1 hdecorated
      cases hpush
      exact pushed_applyBehaviours (by simp) hdecorated
    have hnames : own.map Signal.name =
        s.extents.map (s.channelSignal · .data) ++ [s.tupleName] := by
      have hbrush : s.isBrush = false := by simp [isBrush, hscales]
      rw [map_name_ownSignals hs hown, hbrush]
      simp [channelSignal_data hs, named, tupleName, String.append_assoc, ← List.map_eq_flatMap]
    cases hparent : u.hasParent with
    | false =>
      rw [hlater, BoundScales.push, if_neg (by simp [hparent]), Signal.pushed_eq_nil hnone]
      simp [pushes, hparent]
    | true =>
      rw [hlater, mem_pushed_push hparent hnone, hnames, pushes, hparent, hscales]
      simp [or_comm]

end Selection

end ChartCompiler
