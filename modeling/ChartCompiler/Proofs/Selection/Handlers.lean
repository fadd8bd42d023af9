import ChartCompiler.Proofs.Selection.Names
import Mathlib.Data.List.Basic

/-!
# Extents among the signals of an interval

The signals of the extents stand in front of all others of an interval, in order of projection: two
for each channel of a brush, in pixels and in data, and one in data if the interval is bound to
scales. What later changes the signal of an extent looks for its name, and so comes to the first
signal of that name, which may be another one.

Results:

* `Signal.getElem?_mapFirst`, `Signal.getElem?_foldl`: what becomes of the signal at a place when
  the first signals of some names are changed.
* `Selection.getElem?_ownSignals`: the signal of an extent, at its place.
* `Selection.map_name_begins`: behaviours leave the places of signals as they are.
-/

namespace ChartCompiler

/-! ## Places -/

/-- A list that is put together from parts of one length has the part of a member at its place. -/
theorem getElem?_flatMap_idxOf {α β : Type} [BEq α] [LawfulBEq α] {g : α → List β} {width : Nat}
    (hwidth : 0 < width) (hg : ∀ a, (g a).length = width) {l : List α} {a : α} (ha : a ∈ l) :
    (l.flatMap g)[l.idxOf a * width]? = (g a)[0]? := by
  induction l with
  | nil => cases ha
  | cons b rest ih =>
    rw [List.flatMap_cons]
    by_cases hb : b = a
    · rw [List.idxOf_cons_eq _ hb, Nat.zero_mul, hb,
        List.getElem?_append_left (by rw [hg]; exact hwidth)]
    · rw [List.idxOf_cons_ne _ hb, List.getElem?_append_right (by rw [hg, Nat.succ_mul]; omega), hg,
        Nat.succ_mul, Nat.add_sub_cancel]
      exact ih ((List.mem_cons.1 ha).resolve_left (Ne.symm hb))

/-- A list without repetitions that has one member only. -/
theorem eq_singleton_of_nodup {α : Type} {l : List α} {a : α} (hnodup : l.Nodup)
    (h : ∀ b, b ∈ l ↔ b = a) : l = [a] :=
  List.perm_singleton.1 ((List.perm_ext_iff_of_nodup hnodup (List.nodup_singleton a)).2
    fun b => (h b).trans List.mem_singleton.symm)

namespace Signal

/-- Changing the first signal of a name changes the one at its place. -/
theorem getElem?_mapFirst (n : String) (f : Signal → Signal) (signals : List Signal) (i : Nat) :
    (mapFirst n f signals)[i]? =
      if (signals.map name).idxOf n = i then signals[i]?.map f else signals[i]? := by
  induction signals generalizing i with
  | nil => simp [mapFirst]
  | cons s rest ih =>
    rw [List.map_cons, mapFirst]
    by_cases h : s.name = n
    · rw [if_pos h, List.idxOf_cons_eq _ h]
      cases i <;> simp
    · rw [if_neg h, List.idxOf_cons_ne _ h]
      cases i with
      | zero => simp
      | succ i => simpa using ih i

/-- Changing the first signals of several names, one after the other. The names may depend on those
of all signals, which stay the same. -/
theorem getElem?_foldl {α : Type} {step : List Signal → α → List Signal}
    (target : List String → α → String) (f : List String → α → Signal → Signal)
    (hstep : ∀ signals a, step signals a =
      mapFirst (target (signals.map name) a) (f (signals.map name) a) signals)
    (hname : ∀ names a s, (f names a s).name = s.name) (l : List α) (signals : List Signal)
    (i : Nat) :
    (l.foldl step signals)[i]? = signals[i]?.map fun s =>
      (l.filter fun a => (signals.map name).idxOf (target (signals.map name) a) = i).foldl
        (fun s a => f (signals.map name) a s) s := by
  induction l generalizing signals with
  | nil => simp
  | cons a rest ih =>
    have hnames : (step signals a).map name = signals.map name := by
      rw [hstep]
      exact map_name_mapFirst (hname _ a) signals
    rw [List.foldl_cons, ih, hnames, hstep, getElem?_mapFirst]
    by_cases ha : (signals.map name).idxOf (target (signals.map name) a) = i
    · rw [if_pos ha, List.filter_cons_of_pos (by simpa using ha), Option.map_map]
      rfl
    · rw [if_neg ha, List.filter_cons_of_neg (by simpa using ha)]

end Signal

/-! ## Extents -/

namespace Selection

variable {u : UnitAt} {s : Selection} {c : Channel}

/-- The place of a channel's extent among the signals of an interval: for a brush the extent in
pixels, in front of the one in data. -/
def extentIndex (s : Selection) (c : Channel) : Nat :=
  s.extents.idxOf c * if s.isBrush then 2 else 1

theorem extentIndex_inj {d : Channel} (hc : c ∈ s.extents) :
    s.extentIndex c = s.extentIndex d ↔ c = d := by
  have hwidth : (if s.isBrush then 2 else 1) ≠ 0 := by split <;> decide
  rw [extentIndex, extentIndex, Nat.mul_left_inj hwidth, List.idxOf_inj hc]

theorem type_of_mem_extents (hc : c ∈ s.extents) : s.type = .interval := by
  unfold extents at hc
  split at hc
  · assumption
  · cases hc

/-- The positions that gestures move are those with extents. -/
theorem mem_channels (htype : s.type = .interval) : c ∈ Gesture.channels s ↔ c ∈ s.extents := by
  have hpositions : c ∈ [Channel.x, Channel.y] ↔ c.isPositional = true := by cases c <;> decide
  rw [Gesture.channels, List.mem_filter, hpositions, mem_extents htype, and_comm]

theorem isBrush_eq (htype : s.type = .interval) : s.isBrush = !s.has .scales := by
  simp [isBrush, htype]

/-- What is put together for each extent in order has its first part at the place of the extent. -/
theorem getElem?_extents {α : Type} {g : Channel → List α} {front : List α}
    (hg : ∀ c, (g c).length = if s.isBrush then 2 else 1) (hc : c ∈ s.extents)
    (hfront : front = s.extents.flatMap g) (back : List α) :
    ∃ a, (g c)[0]? = some a ∧ (front ++ back)[s.extentIndex c]? = some a := by
  have hpos : 0 < (g c).length := by
    rw [hg]
    split <;> decide
  have hplace : front[s.extentIndex c]? = (g c)[0]? := by
    rw [hfront, extentIndex]
    exact getElem?_flatMap_idxOf (hg c ▸ hpos) hg hc
  rw [List.getElem?_eq_getElem hpos] at hplace ⊢
  have hlt := (List.getElem?_eq_some_iff.1 hplace).1
  exact ⟨_, rfl, (List.getElem?_append_left hlt).trans hplace⟩

/-- The name of an extent stands at its place, whatever names stand behind those of all extents. -/
theorem getElem?_extentNames (hs : Text.IsName s.name) (hc : c ∈ s.extents) (back : List String) :
    ((s.extents.flatMap (fun c => (if s.isBrush then [c.name] else []) ++ [s.dataWord c]) ++
        back).map s.named)[s.extentIndex c]? = some (s.channelSignal c (Gesture.space s)) := by
  have hbrush := isBrush_eq (type_of_mem_extents hc)
  obtain ⟨word, hword, hplace⟩ := getElem?_extents
    (g := fun c => (if s.isBrush then [c.name] else []) ++ [s.dataWord c])
    (fun c => by split <;> rfl) hc rfl back
  rw [List.getElem?_map, hplace, Option.map_some, Gesture.space]
  cases hscales : s.has .scales with
  | true =>
    obtain rfl : s.dataWord c = word := by simpa [hbrush, hscales] using hword
    rw [if_pos rfl, channelSignal_data hs]
  | false =>
    obtain rfl : c.name = word := by simpa [hbrush, hscales] using hword
    rw [if_neg Bool.false_ne_true, channelSignal_pixels hs]

theorem getElem?_signalNames (hs : Text.IsName s.name) (hc : c ∈ s.extents) :
    s.signalNames[s.extentIndex c]? = some (s.channelSignal c (Gesture.space s)) :=
  getElem?_extentNames hs hc s.fixedWords

/-- An extent is declared before any behaviour takes effect. -/
theorem channelSignal_mem_ownSignals {own : List Signal} (hs : Text.IsName s.name)
    (h : (s.ownSignals u).outcome = .ok own) (hc : c ∈ s.extents) :
    s.channelSignal c (Gesture.space s) ∈ own.map Signal.name := by
  rw [map_name_ownSignals hs h]
  exact List.mem_of_getElem? (getElem?_extentNames hs hc _)

/-- The first signal that is named after the field of a bound extent is an extent. -/
theorem exists_first (htype : s.type = .interval) (hscales : s.has .scales = true)
    (hnodup : s.extents.Nodup) {word : String} (hword : word ∈ s.dataWords) :
    ∃ e ∈ s.extents, s.dataWord e = word ∧
      s.signalNames.idxOf (s.named word) = s.extentIndex e := by
  have hbrush : s.isBrush = false := by
    rw [isBrush_eq htype, hscales]
    rfl
  have hnames : s.signalNames = s.dataWords.map s.named ++ s.fixedWords.map s.named := by
    simp [signalNames, words, dataWords, hbrush, ← List.map_eq_flatMap]
  have hmem : s.named word ∈ s.dataWords.map s.named := List.mem_map_of_mem hword
  rw [hnames, List.idxOf_append_of_mem hmem]
  have hlt := List.idxOf_lt_length_of_mem hmem
  have hfirst := List.getElem_idxOf hlt
  generalize (s.dataWords.map s.named).idxOf (s.named word) = j at hlt hfirst ⊢
  rw [List.length_map, dataWords, List.length_map] at hlt
  simp only [dataWords, List.getElem_map] at hfirst
  refine ⟨s.extents[j], List.getElem_mem hlt, s.named_injective hfirst, ?_⟩
  rw [extentIndex, hnodup.idxOf_getElem, hbrush, if_neg Bool.false_ne_true, Nat.mul_one]

/-- The signal with which an extent starts. -/
theorem getElem?_ownSignals {own : List Signal} (h : (s.ownSignals u).outcome = .ok own)
    (hc : c ∈ s.extents) : ∃ streams signal,
      (Interval.channelSignals u s c streams)[0]? = some signal ∧
      own[s.extentIndex c]? = some signal := by
  have htype := type_of_mem_extents hc
  simp only [ownSignals, htype] at h
  obtain ⟨streams, rfl⟩ := outcome_intervalSignals h
  have hlength : ∀ c, (Interval.channelSignals u s c streams).length =
      if s.isBrush then 2 else 1 := by
    intro c
    rw [isBrush_eq htype, Interval.channelSignals]
    cases s.has .scales <;> rfl
  have hfront : (Interval.positions s.project).value.flatMap
      (fun p => Interval.channelSignals u s p.1 streams) =
        s.extents.flatMap fun c => Interval.channelSignals u s c streams := by
    rw [extents, if_pos htype, ← map_fst_positions, List.flatMap_map]
  rw [List.append_assoc]
  obtain ⟨signal, hsignal, hplace⟩ := getElem?_extents hlength hc hfront _
  exact ⟨streams, signal, hsignal, hplace⟩

/-! ## Behaviours -/

theorem nodup_behaviours (s : Selection) : s.behaviours.Nodup := by
  have hall : Behaviour.all.Nodup := by decide
  exact hall.filter _

/-- Behaviours leave the names of signals at their places. -/
theorem map_name_begins {bs : List Behaviour} {signals after : List Signal}
    (h : (bs.foldlM (s.applyBehaviour u) signals).outcome = .ok after) :
    signals.map Signal.name <+: after.map Signal.name :=
  ⟨_, (map_name_applyBehaviours bs h).symm⟩

end Selection

end ChartCompiler
