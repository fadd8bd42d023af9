import ChartCompiler.Flow.Node
import ChartCompiler.Proofs.OrderedMap

/-!
# Grouping of merges

A rebuild merges nodes as siblings and chains come up, so binnings and truncations under one key
meet in whatever grouping. What a binning lacks is filled in signal by signal, a label with its
field, and the first that has one gives it. So only the sequence of the nodes counts.

Results:

* `OrderedMap.joinsByKey_mergeWith`: what it takes of the values for maps to come together well.
* `Binning.filledFrom_fill`: what a binning keeps, and what it takes from another.
* `merge_laws`: how binnings merge, and how truncations do.
* `FlowNode.merge?_assoc`: nodes merge in either grouping, or in none.
* `FlowNode.joinsTo_iff`: all groupings of a sequence of nodes give what merging them one after the
  other gives.
-/

namespace ChartCompiler

/-! ## Parts under keys -/

/-- How collections of parts under keys come together. Three of them do in either grouping; the
other laws are about the first and the second. -/
structure JoinsByKey {ν α : Type} (join : ν → ν → ν) (parts : ν → OrderedMap String α)
    (FilledFrom : α → α → α → Prop) (a b c : ν) : Prop where
  assoc : join (join a b) c = join a (join b c)
  self : join a a = a
  /-- The keys of the first are followed by the new ones of the second. -/
  keys : (parts (join a b)).keys =
    (parts a).keys ++ (parts b).keys.filter fun k => decide (k ∉ (parts a).keys)
  /-- Under a common key, the part of the first is filled from that of the second. -/
  common : ∀ {k x y}, (parts a).get? k = some x → (parts b).get? k = some y →
    ∃ z, (parts (join a b)).get? k = some z ∧ FilledFrom x y z
  old : ∀ {k}, (parts b).get? k = none → (parts (join a b)).get? k = (parts a).get? k
  new : ∀ {k}, (parts a).get? k = none → (parts (join a b)).get? k = (parts b).get? k

theorem OrderedMap.joinsByKey_mergeWith {ν α : Type} {join : ν → ν → ν}
    {parts : ν → OrderedMap String α} (FilledFrom : α → α → α → Prop) (fill : α → α → α)
    (hparts : Function.Injective parts)
    (hjoin : ∀ a b, parts (join a b) = (parts a).mergeWith fill (parts b))
    (hassoc : ∀ x y z, fill (fill x y) z = fill x (fill y z)) (hself : ∀ x, fill x x = x)
    (hfill : ∀ x y, FilledFrom x y (fill x y)) (a b c : ν) :
    JoinsByKey join parts FilledFrom a b c where
  assoc := hparts (by simp only [hjoin, mergeWith_assoc hassoc])
  self := hparts (by rw [hjoin, mergeWith_self hself])
  keys := by rw [hjoin, keys_mergeWith]
  common := fun {k x y} hx hy => by
    refine ⟨fill x y, ?_, hfill x y⟩
    rw [hjoin, get?_mergeWith, hx, hy]
    rfl
  old := fun {k} hb => by
    rw [hjoin, get?_mergeWith, hb]
    rfl
  new := fun {k} ha => by
    rw [hjoin, get?_mergeWith, ha]
    cases (parts b).get? k <;> rfl

/-! ## Binnings -/

namespace Binning

/-- What becomes of a binning that takes what it lacks from another: its bins, its field and its
output fields stay, and the label comes with its field. -/
structure FilledFrom (b other result : Binning) : Prop where
  params : result.params = b.params
  field : result.field = b.field
  start : result.start = b.start
  stop : result.stop = b.stop
  signal : result.signal = (b.signal <|> other.signal)
  extentSignal : result.extentSignal = (b.extentSignal <|> other.extentSignal)
  labelled : b.label.isSome = true →
    result.label = b.label ∧ result.labelField = b.labelField
  unlabelled : b.label = none →
    result.label = other.label ∧ result.labelField = other.labelField

theorem filledFrom_fill (b other : Binning) : b.FilledFrom other (b.fill other) where
  params := rfl
  field := rfl
  start := rfl
  stop := rfl
  signal := rfl
  extentSignal := rfl
  labelled := fun h => by
    obtain ⟨expr, hlabel⟩ := Option.isSome_iff_exists.1 h
    simp [fill, hlabel]
  unlabelled := fun h => by simp [fill, h]

/-- The label of three binnings is that of the first that has one, with its field. -/
theorem fill_assoc (b c d : Binning) : (b.fill c).fill d = b.fill (c.fill d) := by
  -- The label stands inside the condition as well, so the first is taken apart before the cases.
  obtain ⟨params, field, start, stop, signal, extentSignal, label, labelField⟩ := b
  simp only [fill, Option.orElse_eq_orElse, Option.orElse_eq_or, Option.or_assoc, mk.injEq,
    true_and]
  cases label <;> rfl

theorem fill_self (b : Binning) : b.fill b = b := by
  simp only [fill, Option.orElse_eq_orElse, Option.orElse_eq_or, Option.or_self, ite_self]

end Binning

theorem Binnings.byKey_injective : Function.Injective Binnings.byKey := by
  rintro ⟨m⟩ ⟨n⟩ h
  exact congrArg Binnings.mk h

theorem Binnings.joinsByKey_merge (a b c : Binnings) :
    JoinsByKey merge byKey Binning.FilledFrom a b c :=
  OrderedMap.joinsByKey_mergeWith Binning.FilledFrom Binning.fill byKey_injective
    (fun _ _ => rfl) Binning.fill_assoc Binning.fill_self Binning.filledFrom_fill a b c

/-! ## Truncations -/

theorem Truncations.byOutput_injective : Function.Injective Truncations.byOutput := by
  rintro ⟨m⟩ ⟨n⟩ h
  exact congrArg Truncations.mk h

/-- A truncation lacks nothing, so the first that writes a field is the one that counts. -/
theorem Truncations.joinsByKey_merge (a b c : Truncations) :
    JoinsByKey merge byOutput (fun t _ result => result = t) a b c :=
  OrderedMap.joinsByKey_mergeWith (fun t _ result => result = t) (fun old _ => old)
    byOutput_injective (fun _ _ => rfl) (fun _ _ _ => rfl) (fun _ => rfl) (fun _ _ => rfl) a b c

/-- How binnings merge, and how truncations do: grouping and repetition do not matter, the order of
the keys included; the new keys of the second come last; and under the keys of the first, its bins,
its fields and their output fields stay. -/
theorem merge_laws (a b c : Binnings) (ts us vs : Truncations) :
    JoinsByKey Binnings.merge Binnings.byKey Binning.FilledFrom a b c ∧
      JoinsByKey Truncations.merge Truncations.byOutput (fun t _ result => result = t) ts us vs :=
  ⟨a.joinsByKey_merge b c, ts.joinsByKey_merge us vs⟩

/-! ## Nodes -/

namespace FlowNode

theorem merge?_assoc (n m k : FlowNode) :
    (n.merge? m).bind (·.merge? k) = (m.merge? k).bind n.merge? := by
  cases n with
  | bin as =>
    cases m with
    | bin bs =>
      cases k with
      | bin cs => exact congrArg (some ∘ bin) (as.joinsByKey_merge bs cs).assoc
      | _ => rfl
    | timeUnit ts => cases k <;> rfl
    | _ => rfl
  | timeUnit ts =>
    cases m with
    | timeUnit us =>
      cases k with
      | timeUnit vs => exact congrArg (some ∘ timeUnit) (ts.joinsByKey_merge us vs).assoc
      | _ => rfl
    | bin bs => cases k <;> rfl
    | _ => rfl
  -- What is no binning and no truncation joins with nothing, whatever the other two give.
  | _ => exact (Option.bind_eq_none_iff.2 fun _ _ => rfl).symm

/-- A sequence of nodes is joined to one, two stretches that are next to each other at a time. -/
inductive JoinsTo : List FlowNode → FlowNode → Prop
  | single (n : FlowNode) : JoinsTo [n] n
  | join {ns ms : List FlowNode} {n m k : FlowNode} :
      JoinsTo ns n → JoinsTo ms m → n.merge? m = some k → JoinsTo (ns ++ ms) k

/-- Nodes merged one after the other into the first. -/
def mergeAll? : List FlowNode → Option FlowNode
  | [] => none
  | n :: ns => ns.foldlM merge? n

/-- Into what stands before it, a sequence is merged node by node or at once. -/
theorem foldlM_merge? (n m : FlowNode) (ms : List FlowNode) :
    (m :: ms).foldlM merge? n = (mergeAll? (m :: ms)).bind n.merge? := by
  -- The first two of the sequence are joined to each other first, so that it gets shorter.
  induction ms generalizing n m with
  | nil => simp [mergeAll?]
  | cons k ms ih =>
    calc (m :: k :: ms).foldlM merge? n
        = ((n.merge? m).bind (·.merge? k)).bind fun a => ms.foldlM merge? a := by
          simp only [List.foldlM_cons, Option.bind_eq_bind, Option.bind_assoc]
      _ = (m.merge? k).bind fun a => (a :: ms).foldlM merge? n := by
          rw [merge?_assoc, Option.bind_assoc]
          rfl
      _ = (m.merge? k).bind fun a => (mergeAll? (a :: ms)).bind n.merge? := by simp only [ih]
      _ = (mergeAll? (m :: k :: ms)).bind n.merge? := (Option.bind_assoc ..).symm

theorem mergeAll?_append {ns ms : List FlowNode} {n m : FlowNode} (hn : mergeAll? ns = some n)
    (hm : mergeAll? ms = some m) : mergeAll? (ns ++ ms) = n.merge? m := by
  cases ns with
  | nil => cases hn
  | cons a ns =>
    cases ms with
    | nil => cases hm
    | cons b ms =>
      have hfirst : ns.foldlM merge? a = some n := hn
      rw [List.cons_append, mergeAll?, List.foldlM_append, hfirst]
      exact (foldlM_merge? n b ms).trans (by rw [hm]; rfl)

theorem JoinsTo.foldlM {ns : List FlowNode} {n : FlowNode} (h : JoinsTo ns n) {ms : List FlowNode}
    {k : FlowNode} (hk : ms.foldlM merge? n = some k) : JoinsTo (ns ++ ms) k := by
  induction ms generalizing ns n with
  | nil =>
    cases hk
    rwa [List.append_nil]
  | cons m ms ih =>
    rw [List.foldlM_cons] at hk
    obtain ⟨a, ha, hk⟩ := Option.bind_eq_some_iff.1 hk
    rw [List.append_cons]
    exact ih (h.join (.single m) ha) hk

/-- All groupings of a sequence of nodes give what merging them one after the other gives. -/
theorem joinsTo_iff {ns : List FlowNode} {k : FlowNode} : JoinsTo ns k ↔ mergeAll? ns = some k := by
  constructor
  · intro h
    induction h with
    | single n => rfl
    | join _ _ hk hn hm => exact (mergeAll?_append hn hm).trans hk
  · intro h
    cases ns with
    | nil => cases h
    | cons n ns => exact (JoinsTo.single n).foldlM h

end FlowNode

end ChartCompiler
