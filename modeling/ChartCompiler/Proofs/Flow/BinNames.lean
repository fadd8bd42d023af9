import ChartCompiler.Proofs.Flow.Planting
import ChartCompiler.Proofs.OrderedMap

/-!
# Names of bins

The definitions of a unit that cut a field into the same bins share one binning. Its ends bear the
names that the first of them gives, and its label the name that the first gives that needs one. The
names begin with the key of the binning, so it does not matter which definition gives them, except
that a count has but one name, which says nothing of bins.

**Deviation.** Where a count comes first, the others still go by their own names, which no binning
writes.

Results:

* `Binnings.name?_ofUnit`: who names the parts of a binning.
* `FieldDef.outputName_of_binKey?`: names begin with the key.
* `UnitView.Eclipsed`: a name that is lost to a count.
* `Binnings.mem_produced_of_not_eclipsed`: all others are written.
-/

namespace ChartCompiler

namespace FieldDef

/-- The key of the bins that a definition cuts a field into. -/
def binKey? (fd : FieldDef) : Option String := do
  return Binning.key (← fd.bin) (← fd.field)

theorem binKey?_eq_some {fd : FieldDef} {key : String} :
    fd.binKey? = some key ↔
      ∃ params field, fd.bin = some params ∧ fd.field = some field ∧
        Binning.key params field = key := by
  unfold binKey?
  cases fd.bin <;> cases fd.field <;> simp

/-- The names of bins begin with their key, but for a count. -/
theorem outputName_of_binKey? {fd : FieldDef} {key : String} (h : fd.binKey? = some key)
    (hcount : fd.isCount = false) (part : BinPart) : fd.outputName part = key ++ part.suffix := by
  obtain ⟨params, field, hbin, hfield, rfl⟩ := binKey?_eq_some.1 h
  simp [outputName, hcount, operation?, hbin, hfield, Binning.key]

/-- Whether bins have a part on a channel: both ends, and a label if they need one. -/
def hasPart (fd : FieldDef) (channel : Channel) (part : BinPart) : Bool :=
  part != .range || fd.needsRangeLabel channel

theorem mem_outputNames {fd : FieldDef} {channel : Channel} {name : String} :
    name ∈ fd.outputNames channel ↔
      ∃ part, fd.hasPart channel part = true ∧ name = fd.outputName part := by
  have hparts : (∃ part, fd.hasPart channel part = true ∧ name = fd.outputName part) ↔
      name = fd.outputName .start ∨ name = fd.outputName .stop ∨
        fd.needsRangeLabel channel = true ∧ name = fd.outputName .range := by
    constructor
    · rintro ⟨part, hpart, hname⟩
      cases part <;> simp_all [hasPart]
    · rintro (h | h | ⟨hlabel, h⟩)
      · exact ⟨.start, rfl, h⟩
      · exact ⟨.stop, rfl, h⟩
      · exact ⟨.range, hlabel, h⟩
  rw [hparts, outputNames]
  cases hbin : fd.bin with
  | none =>
    have hlabel : fd.needsRangeLabel channel = false := by simp [needsRangeLabel, hbin]
    have hsame : fd.outputName .stop = fd.outputName .start := by simp [outputName, hbin]
    simp [hlabel, hsame]
  | some params =>
    cases hlabel : fd.needsRangeLabel channel <;> simp

end FieldDef

/-- The name of a part of the bins. -/
def Binning.name? (b : Binning) : BinPart → Option String
  | .start => some b.start
  | .stop => some b.stop
  | .range => b.labelField

theorem Binning.mem_outputs_of_name? {b : Binning} {part : BinPart} {name : String}
    (h : b.name? part = some name) : name ∈ b.outputs := by
  cases part with
  | range => simp [outputs, show b.labelField = some name from h]
  | _ =>
    cases h
    simp [outputs]

/-- A binning keeps its names, and takes that of the label if it has none. -/
theorem Binning.Labelled.name?_fill {b : Binning} (hb : b.Labelled) (c : Binning)
    (part : BinPart) : (b.fill c).name? part = (b.name? part).or (c.name? part) := by
  cases part with
  | range =>
    unfold Labelled at hb
    cases hlabel : b.labelField <;> simp_all [Binning.name?, Binning.fill]
  | _ => rfl

namespace UnitView

/-- Whether a definition asks for a part of the bins under a key. -/
def asksFor (key : String) (part : BinPart) (e : Channel × FieldDef) : Bool :=
  e.2.binKey? == some key && e.2.hasPart e.1 part

/-- The definition that names a part of the bins under a key: the first that asks for it. -/
def namer? (u : UnitView) (key : String) (part : BinPart) : Option FieldDef :=
  (u.allFieldDefs.find? (asksFor key part)).map Prod.snd

/-- A name by which a definition goes, although its bins bear that of a count. -/
def Eclipsed (u : UnitView) (channel : Channel) (fd : FieldDef) (part : BinPart) : Prop :=
  fd.aggregate = none ∧ fd.hasPart channel part = true ∧
    ∃ key namer, fd.binKey? = some key ∧ u.namer? key part = some namer ∧ namer.isCount = true

end UnitView

namespace Binnings

/-- What the binning of a definition is called. -/
theorem name?_ofFieldDef {view : String} {u : UnitView} {config : Config} {channel : Channel}
    {fd : FieldDef} {b : Binning} (h : ofFieldDef? view u config channel fd = some b) :
    fd.binKey? = some (Binning.key b.params b.field) ∧ fd.field = some b.field ∧
      ∀ part, b.name? part =
        if fd.hasPart channel part then some (fd.outputName part) else none := by
  obtain ⟨params, hbin, h⟩ := Option.bind_eq_some_iff.1 h
  obtain ⟨field, hfield, h⟩ := Option.bind_eq_some_iff.1 h
  dsimp only at h
  split_ifs at h with hlabel
  · cases h
    refine ⟨FieldDef.binKey?_eq_some.2 ⟨params, field, hbin, hfield, rfl⟩, hfield, fun part => ?_⟩
    cases part <;> simp [Binning.name?, Binning.inView, FieldDef.hasPart, hlabel]
  · cases h
    refine ⟨FieldDef.binKey?_eq_some.2 ⟨params, field, hbin, hfield, rfl⟩, hfield, fun part => ?_⟩
    cases part <;> simp [Binning.name?, Binning.inView, FieldDef.hasPart, hlabel]

theorem binKey?_eq_none {view : String} {u : UnitView} {config : Config} {channel : Channel}
    {fd : FieldDef} (h : ofFieldDef? view u config channel fd = none) : fd.binKey? = none := by
  unfold ofFieldDef? at h
  unfold FieldDef.binKey?
  cases hbin : fd.bin with
  | none => rfl
  | some params =>
    cases hfield : fd.field with
    | none => rfl
    | some field =>
      simp only [hbin, hfield, Option.bind_eq_bind, Option.bind_some] at h
      split_ifs at h

/-- Adds the binning of a definition. -/
def addFieldDef (view : String) (u : UnitView) (config : Config) (bs : Binnings)
    (e : Channel × FieldDef) : Binnings :=
  match ofFieldDef? view u config e.1 e.2 with
  | some b => bs.add (Binning.key b.params b.field) b
  | none => bs

theorem name?_addFieldDef {view : String} {u : UnitView} {config : Config} {bs : Binnings}
    (hbs : bs.Labelled) (e : Channel × FieldDef) (key : String) (part : BinPart) :
    (((addFieldDef view u config bs e).byKey.get? key).bind fun b => b.name? part) =
      ((bs.byKey.get? key).bind fun b => b.name? part).or
        (if UnitView.asksFor key part e then some (e.2.outputName part) else none) := by
  unfold addFieldDef UnitView.asksFor
  split
  · next b hb =>
    obtain ⟨hkey, -, hname⟩ := name?_ofFieldDef hb
    rw [add, OrderedMap.get?_upsert, hkey]
    by_cases hk : key = Binning.key b.params b.field
    · subst hk
      cases hold : bs.byKey.get? (Binning.key b.params b.field) with
      | none => simp [hname]
      | some old => simp [(hbs _ old hold).name?_fill, hname]
    · simp [hk, Ne.symm hk]
  · next hnone => simp [binKey?_eq_none hnone]

theorem name?_foldl {view : String} {u : UnitView} {config : Config} (key : String)
    (part : BinPart) (defs : List (Channel × FieldDef)) : ∀ {bs : Binnings}, bs.Labelled →
      (((defs.foldl (addFieldDef view u config) bs).byKey.get? key).bind fun b => b.name? part) =
        ((bs.byKey.get? key).bind fun b => b.name? part).or
          ((defs.find? (UnitView.asksFor key part)).map fun e => e.2.outputName part) := by
  induction defs with
  | nil => simp
  | cons e rest ih =>
    intro bs hbs
    have hadded : (addFieldDef view u config bs e).Labelled := by
      unfold addFieldDef
      split
      · next b hb => exact holds_add .fill hbs (labelled_ofFieldDef hb) _
      · exact hbs
    rw [List.foldl_cons, ih hadded, name?_addFieldDef hbs, List.find?_cons, Option.or_assoc]
    cases UnitView.asksFor key part e <;> simp

/-- The parts of a binning are named by the first definition that asks for them. -/
theorem name?_ofUnit (view : String) (u : UnitView) (config : Config) (key : String)
    (part : BinPart) :
    (((ofUnit view u config).byKey.get? key).bind fun b => b.name? part) =
      (u.namer? key part).map fun namer => namer.outputName part := by
  have hempty : (⟨{}⟩ : Binnings).Labelled := fun _ _ h => nomatch h
  have hfold : ofUnit view u config = u.allFieldDefs.foldl (addFieldDef view u config) ⟨{}⟩ := rfl
  rw [hfold, name?_foldl key part u.allFieldDefs hempty, UnitView.namer?, Option.map_map]
  rfl

/-- A name that is not lost is written. -/
theorem mem_produced_of_not_eclipsed {view : String} {u : UnitView} {config : Config}
    {e : Channel × FieldDef} (he : e ∈ u.allFieldDefs) (hplain : e.2.aggregate = none)
    {key : String} (hkey : e.2.binKey? = some key) {part : BinPart}
    (hpart : e.2.hasPart e.1 part = true) (hstays : ¬u.Eclipsed e.1 e.2 part) :
    e.2.outputName part ∈ (ofUnit view u config).produced := by
  have hcount : e.2.isCount = false := by simp [FieldDef.isCount, hplain]
  have hasks : UnitView.asksFor key part e = true := by simp [UnitView.asksFor, hkey, hpart]
  obtain ⟨namer, hnamer⟩ : ∃ namer, u.namer? key part = some namer := by
    obtain ⟨first, hfirst⟩ := Option.isSome_iff_exists.1 (List.find?_isSome.2 ⟨e, he, hasks⟩)
    exact ⟨first.2, by rw [UnitView.namer?, hfirst, Option.map_some]⟩
  have hnamerCount : namer.isCount = false := by
    by_contra hc
    exact hstays ⟨hplain, hpart, key, namer, hkey, hnamer, by simpa using hc⟩
  have hnamerKey : namer.binKey? = some key := by
    obtain ⟨first, hfirst, rfl⟩ := Option.map_eq_some_iff.1 hnamer
    have hfirstAsks := List.find?_some hfirst
    rw [UnitView.asksFor, Bool.and_eq_true] at hfirstAsks
    exact beq_iff_eq.1 hfirstAsks.1
  have hname := name?_ofUnit view u config key part
  rw [hnamer, Option.map_some, FieldDef.outputName_of_binKey? hnamerKey hnamerCount,
    ← FieldDef.outputName_of_binKey? hkey hcount] at hname
  obtain ⟨b, hb, hname⟩ := Option.bind_eq_some_iff.1 hname
  rw [produced, OrderedSet.mem_ofList, List.mem_flatMap]
  exact ⟨b, OrderedMap.mem_values.2 ⟨key, hb⟩, Binning.mem_outputs_of_name? hname⟩

end Binnings

end ChartCompiler
