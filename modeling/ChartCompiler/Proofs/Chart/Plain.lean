import ChartCompiler.Chart.Spec
import ChartCompiler.Proofs.Json.Decoding

/-!
# What documents hold

A document that was read from text holds values of documents only, and asks for no more bins than
32 bits hold. This is followed through the readers of its parts.

Results:

* `ChartSpec.Plain`, `Config.Plain`: what is known of a chart and of its configuration.
* `ChartDocument.plain_of_ofText`: it holds of every document that is read.
-/

namespace ChartCompiler

open Json.Record (gives_bind gives_pure gives_required gives_withDefault gives_optional
  gives_any_optional gives_optionalNamed)

/-! ## Bins -/

/-- No more bins than 32 bits hold. -/
def BinParams.Plain (p : BinParams) : Prop := ∀ n ∈ p.maxbins, n < 4294967296

def Bin.Plain : Bin → Prop
  | .flag _ => True
  | .params p => p.Plain

theorem BinParams.gives_decode : Json.Gives decode Plain := by
  refine Json.gives_read (gives_bind (gives_optionalNamed _ Json.gives_asWord) fun maxbins h => ?_)
  iterate 7 refine gives_bind (gives_optionalNamed _ Json.gives_true) fun _ _ => ?_
  exact gives_pure h

theorem Bin.gives_decode : Json.Gives decode Plain :=
  Json.gives_orElse (Json.gives_map fun _ _ _ _ => trivial) (Json.gives_map BinParams.gives_decode)

/-- What a request stands for. -/
theorem Bin.Plain.normalize {b : Bin} (h : b.Plain) {channel : Option Channel} {p : BinParams}
    (hp : b.normalize channel = some p) : p.Plain := by
  cases b with
  | flag on =>
    cases on with
    | false => cases hp
    | true =>
      cases hp
      rintro _ ⟨⟩
      cases channel with
      | none => decide
      | some c => cases c <;> decide
  | params q =>
    cases hp
    exact h

/-! ## Data and transforms -/

namespace DataSource

/-- Rows and formats are values of documents. -/
structure Plain (d : DataSource) : Prop where
  values : ∀ rows ∈ d.values, ∀ j ∈ rows, Json.Sound j
  format : ∀ j ∈ d.format, Json.Sound j

theorem gives_decode : Json.Gives decode Plain := by
  refine Json.gives_read (gives_bind (gives_any_optional _ _) fun _ _ => ?_)
  refine gives_bind (gives_optional _ (Json.gives_listOf Json.gives_asAny))
    fun values hvalues => ?_
  refine gives_bind (gives_any_optional _ _) fun _ _ => ?_
  exact gives_bind (gives_optional _ Json.gives_asAny) fun format hformat =>
    gives_pure ⟨hvalues, hformat⟩

end DataSource

def Transform.Plain : Transform → Prop
  | .bin t => t.bin.Plain
  | _ => True

theorem BinTransform.gives_decode : Json.Gives decode fun t => t.bin.Plain := by
  refine Json.gives_read (gives_bind (gives_required _ Bin.gives_decode) fun bin hbin => ?_)
  refine gives_bind (gives_required _ Json.gives_true) fun _ _ => ?_
  exact gives_bind (gives_any_optional _ _) fun _ _ => gives_pure hbin

theorem Transform.gives_decode : Json.Gives decode Plain := by
  have hcalculate : Json.Gives decodeCalculate Plain :=
    Json.gives_read (gives_bind (gives_required _ Json.gives_true) fun _ _ =>
      gives_bind (gives_required _ Json.gives_true) fun _ _ => gives_pure trivial)
  have hfilter : Json.Gives decodeFilter Plain :=
    Json.gives_read (gives_bind (gives_required _ Json.gives_true) fun _ _ => gives_pure trivial)
  exact Json.gives_orElse hcalculate <| Json.gives_orElse hfilter <|
    Json.gives_orElse (Json.gives_map BinTransform.gives_decode) <|
    Json.gives_orElse (Json.gives_map Json.gives_true) (Json.gives_map Json.gives_true)

/-! ## Channels -/

namespace FieldSpec

/-- The bins of a definition, and of the one that holds under its condition. -/
structure Plain (s : FieldSpec) : Prop where
  bin : ∀ b ∈ s.bin, b.Plain
  condition : ∀ c ∈ s.condition, ∀ b ∈ c.definition.bin, b.Plain

/-- The fields of a definition, with the reader of its condition left open. -/
def fieldsWith (content : Json.Content) (condition : Json.Decoder (Condition FieldSpec)) :
    Json.Record FieldSpec := do
  let field ← Json.Record.optional "field" Json.asString
  let type ← Json.Record.optional "type" (FieldType.decode content)
  let aggregate ← Json.Record.optional "aggregate" (AggregateOp.decode content)
  let bin ← Json.Record.optional "bin" Bin.decode
  let timeUnit ← Json.Record.optional "timeUnit" TimeUnit.decode
  let scale ← Json.Record.optional "scale" (ScaleSpec.decode content)
  let axis ← Json.Record.optional "axis" GuideSpec.decode
  let legend ← Json.Record.optional "legend" GuideSpec.decode
  let value ← Json.Record.optional "value" Json.asAny
  let condition ← Json.Record.optional "condition" condition
  return ⟨field, type, aggregate, bin, timeUnit, scale, axis, legend, value, condition⟩

/-- A condition, with the reader of its definition left open. -/
def conditionWith (definition : Json.Record FieldSpec) : Json.Decoder (Condition FieldSpec) :=
  Json.Record.readNamed do
    let selection ← Json.Record.optional "selection" SelectionPredicate.decode
    let test ← Json.Record.optional "test" Json.asString
    let definition ← definition
    return ⟨selection, test, definition⟩

theorem fieldReader_zero (content : Json.Content) :
    fieldReader 0 content = fieldsWith content fun _ => none := rfl

theorem fieldReader_succ (depth : Nat) (content : Json.Content) :
    fieldReader (depth + 1) content =
      fieldsWith content (conditionWith (fieldReader depth .merged)) := rfl

theorem gives_fieldsWith {content : Json.Content} {condition : Json.Decoder (Condition FieldSpec)}
    (h : Json.Gives condition fun c => ∀ b ∈ c.definition.bin, b.Plain) :
    (fieldsWith content condition).Gives Plain := by
  unfold fieldsWith
  iterate 3 refine gives_bind (gives_any_optional _ _) fun _ _ => ?_
  refine gives_bind (gives_optional _ Bin.gives_decode) fun bin hbin => ?_
  iterate 5 refine gives_bind (gives_any_optional _ _) fun _ _ => ?_
  exact gives_bind (gives_optional _ h) fun condition hcondition =>
    gives_pure ⟨hbin, hcondition⟩

theorem gives_fieldReader (depth : Nat) :
    ∀ content, (fieldReader depth content).Gives Plain := by
  induction depth with
  | zero =>
    intro content
    rw [fieldReader_zero]
    exact gives_fieldsWith fun j c _ hc => nomatch hc
  | succ depth ih =>
    intro content
    rw [fieldReader_succ]
    refine gives_fieldsWith (Json.gives_readNamed ?_)
    iterate 2 refine gives_bind (gives_any_optional _ _) fun _ _ => ?_
    exact gives_bind (ih .merged) fun definition hdefinition => gives_pure hdefinition.bin

theorem gives_decode : Json.Gives decode Plain := fun j s hj hs =>
  Json.gives_read (gives_fieldReader j.depth .plain) j s hj hs

/-- What a definition of a channel asks for. -/
theorem Plain.resolve? {s : FieldSpec} (h : ∀ b ∈ s.bin, b.Plain) {channel : Channel}
    {fd : FieldDef} (hfd : s.resolve? channel = some fd) : ∀ p ∈ fd.bin, p.Plain := by
  unfold FieldSpec.resolve? at hfd
  split_ifs at hfd
  cases hfd
  intro p hp
  obtain ⟨b, hb, hp⟩ := Option.bind_eq_some_iff.1 hp
  exact (h b hb).normalize hp

end FieldSpec

namespace Encoding

def Plain (e : Encoding) : Prop := ∀ channel specs, e.get? channel = some specs →
  ∀ s ∈ specs, s.Plain

theorem Plain.empty : Plain {} := fun _ _ h => nomatch h

theorem Plain.extend {e f : Encoding} (he : e.Plain) (hf : f.Plain) : Plain (e.extend f) := by
  intro channel specs h
  rcases (Option.orElse_eq_some _ _ _).1 h with h | ⟨-, h⟩
  · exact hf channel specs h
  · exact he channel specs h

theorem gives_decodeChannel : Json.Gives decodeChannel fun specs => ∀ s ∈ specs, s.Plain :=
  Json.gives_orElse (Json.gives_listOf FieldSpec.gives_decode)
    (Json.gives_map fun j s hj hs => by simpa using FieldSpec.gives_decode j s hj hs)

theorem plain_ofList {entries : List (Channel × List FieldSpec)}
    (h : ∀ e ∈ entries, ∀ s ∈ e.2, s.Plain) : Plain (ChannelMap.ofList entries) := by
  unfold ChannelMap.ofList
  refine List.foldlRecOn (motive := Plain) entries _ .empty fun e he entry hentry => ?_
  intro channel specs hspecs
  simp only [ChannelMap.insert] at hspecs
  split_ifs at hspecs
  · cases hspecs
    exact h entry hentry
  · exact he channel specs hspecs

theorem gives_decode : Json.Gives decode Plain :=
  Json.gives_map ((Json.gives_mapOf gives_decodeChannel).imp fun _ => plain_ofList)

end Encoding

/-! ## Selections -/

def Bind.Plain : Bind → Prop
  | .scales => True
  | .input elements => (Json.obj elements).Sound

namespace SelectionProps

/-- Input elements and initial values are values of documents. -/
structure Plain (p : SelectionProps) : Prop where
  bind : ∀ b ∈ p.bind, b.Plain
  init : ∀ j ∈ p.init, Json.Sound j

theorem gives_fieldReader (content : Json.Content) : (fieldReader content).Gives Plain := by
  unfold fieldReader
  iterate 6 refine gives_bind (gives_any_optional _ _) fun _ _ => ?_
  have hbind : Json.Gives Bind.decode Bind.Plain := by
    refine Json.gives_orElse (Json.gives_choice fun s b hb => ?_)
      (Json.gives_map Json.gives_asMembers)
    split_ifs at hb
    cases hb
    trivial
  refine gives_bind (gives_optional _ hbind) fun bind hbind => ?_
  iterate 5 refine gives_bind (gives_any_optional _ _) fun _ _ => ?_
  exact gives_bind (gives_optional _ Json.gives_asAny) fun init hinit =>
    gives_pure ⟨hbind, hinit⟩

theorem gives_decode : Json.Gives decode Plain := Json.gives_read (gives_fieldReader .plain)

/-- A definition inherits input elements, and no initial value. -/
theorem Plain.withDefaults {p defaults : SelectionProps} (hp : p.Plain) (hd : defaults.Plain) :
    (p.withDefaults defaults).Plain where
  bind b hb := by
    rcases (Option.orElse_eq_some _ _ _).1 hb with hb | ⟨-, hb⟩
    · exact hp.bind b hb
    · exact hd.bind b hb
  init := hp.init

end SelectionProps

theorem SelectionDef.gives_decode : Json.Gives decode fun d => d.props.Plain := by
  refine Json.gives_readNamed (gives_bind (gives_required _ Json.gives_true) fun _ _ => ?_)
  exact gives_bind (SelectionProps.gives_fieldReader .merged) fun props hprops => gives_pure hprops

namespace Config

/-- The properties that definitions inherit. -/
def Plain (c : Config) : Prop := ∀ type, (c.selection.ofType type).Plain

theorem plain_standard : standard.Plain := by
  rintro (_ | _ | _) <;> constructor <;> intro _ h <;> cases h

theorem gives_selection :
    Json.Gives SelectionConfig.decode fun s => ∀ type, (s.ofType type).Plain := by
  refine Json.gives_read (gives_bind (gives_withDefault _ (plain_standard .single)
    SelectionProps.gives_decode) fun single hsingle => ?_)
  refine gives_bind (gives_withDefault _ (plain_standard .multi) SelectionProps.gives_decode)
    fun multi hmulti => ?_
  refine gives_bind (gives_withDefault _ (plain_standard .interval) SelectionProps.gives_decode)
    fun interval hinterval => gives_pure ?_
  rintro (_ | _ | _)
  exacts [hsingle, hmulti, hinterval]

theorem gives_decode : Json.Gives decode Plain := by
  refine Json.gives_read (gives_bind (gives_withDefault _ trivial Json.gives_true) fun _ _ => ?_)
  iterate 2 refine gives_bind (gives_withDefault _ trivial Json.gives_true) fun _ _ => ?_
  exact gives_bind (gives_withDefault _ plain_standard gives_selection) fun _ h => gives_pure h

end Config

/-! ## Charts -/

/-- The data of a view, and its transforms. -/
structure ViewHead.Plain (h : ViewHead) : Prop where
  data : ∀ d ∈ h.data, d.Plain
  transforms : ∀ t ∈ h.transforms, t.Plain

structure UnitSpec.Plain (s : UnitSpec) : Prop where
  encoding : s.encoding.Plain
  selections : ∀ e ∈ s.selections, e.2.props.Plain

/-- What is known of all views of a chart. -/
inductive ChartSpec.Plain : ChartSpec → Prop
  | unit {head : ViewHead} {size : ViewSize} {spec : UnitSpec} :
      head.Plain → spec.Plain → Plain (.unit head size spec)
  | layer {head : ViewHead} {size : ViewSize} {encoding : Encoding} {children : List ChartSpec} :
      head.Plain → encoding.Plain → (∀ c ∈ children, Plain c) →
      Plain (.layer head size encoding children)
  | concat {head : ViewHead} {children : List ChartSpec} :
      head.Plain → (∀ c ∈ children, Plain c) → Plain (.concat head children)

theorem ViewHead.gives_fieldReader : fieldReader.Gives Plain := by
  refine gives_bind (gives_any_optional _ _) fun _ _ => ?_
  refine gives_bind (gives_optional _ DataSource.gives_decode)
    fun data hdata => ?_
  exact gives_bind (gives_withDefault _ (fun _ h => nomatch h)
    (Json.gives_listOf Transform.gives_decode)) fun _ htransforms => gives_pure ⟨hdata, htransforms⟩

theorem ViewSize.gives_fieldReader : fieldReader.Gives fun _ => True := by
  iterate 2 refine gives_bind (gives_any_optional _ _) fun _ _ => ?_
  exact gives_pure trivial

namespace ChartSpec

theorem gives_encodingReader : encodingReader.Gives Encoding.Plain :=
  gives_withDefault _ .empty Encoding.gives_decode

theorem gives_decodeUnit : Json.Gives decodeUnit Plain := by
  refine Json.gives_read (gives_bind ViewHead.gives_fieldReader fun head hhead => ?_)
  refine gives_bind (gives_required _ Json.gives_true) fun _ _ => ?_
  refine gives_bind gives_encodingReader fun encoding hencoding => ?_
  refine gives_bind (gives_withDefault _ (fun _ h => nomatch h)
    (Json.gives_mapOf SelectionDef.gives_decode)) fun selections hselections => ?_
  exact gives_bind ViewSize.gives_fieldReader fun _ _ =>
    gives_pure (.unit hhead ⟨hencoding, hselections⟩)

theorem gives_decodeLayer {child : Json.Decoder ChartSpec} (h : Json.Gives child Plain) :
    Json.Gives (decodeLayer child) Plain := by
  refine Json.gives_read (gives_bind ViewHead.gives_fieldReader fun head hhead => ?_)
  refine gives_bind (gives_required _ (Json.gives_listOf h)) fun children hchildren => ?_
  refine gives_bind gives_encodingReader fun encoding hencoding => ?_
  exact gives_bind ViewSize.gives_fieldReader fun _ _ =>
    gives_pure (.layer hhead hencoding hchildren)

theorem gives_decodeConcat (key : String) {child : Json.Decoder ChartSpec}
    (h : Json.Gives child Plain) : Json.Gives (decodeConcat key child) Plain := by
  refine Json.gives_read (gives_bind ViewHead.gives_fieldReader fun head hhead => ?_)
  exact gives_bind (gives_required _ (Json.gives_listOf h)) fun children hchildren =>
    gives_pure (.concat hhead hchildren)

theorem gives_decodeWithin (depth : Nat) : Json.Gives (decodeWithin depth) Plain := by
  induction depth with
  | zero => exact fun _ _ _ h => nomatch h
  | succ depth ih =>
    exact Json.gives_orElse (gives_decodeLayer ih) <|
      Json.gives_orElse (gives_decodeConcat _ ih) <|
      Json.gives_orElse (gives_decodeConcat _ ih) gives_decodeUnit

theorem gives_decode : Json.Gives decode Plain := fun j => gives_decodeWithin j.depth j

end ChartSpec

namespace ChartDocument

/-- What is known of a document. -/
structure Plain (d : ChartDocument) : Prop where
  chart : d.chart.Plain
  config : d.config.Plain

theorem plain_of_splitConfig {document rest : Json} {config : Config} (h : document.Sound)
    (hsplit : splitConfig document = some (config, rest)) : config.Plain ∧ rest.Sound := by
  unfold splitConfig at hsplit
  split at hsplit
  · next members =>
    obtain ⟨hnodup, hmembers⟩ : (members.map Prod.fst).Nodup ∧ ∀ m ∈ members, m.2.Sound := by
      cases h with
      | obj hnodup hmembers => exact ⟨hnodup, hmembers⟩
    split at hsplit
    · next j hj =>
      obtain ⟨c, hc, heq⟩ := Option.map_eq_some_iff.1 hsplit
      cases heq
      refine ⟨Config.gives_decode j _ (Json.sound_of_lookup hmembers hj) hc, .obj ?_ ?_⟩
      · exact hnodup.sublist (List.filter_sublist.map _)
      · exact fun m hm => hmembers m (List.filter_sublist.subset hm)
    · cases hsplit
      exact ⟨Config.plain_standard, h⟩
  · cases hsplit
    exact ⟨Config.plain_standard, h⟩

/-- What is known of every document that is read. -/
theorem plain_of_ofText {text : String} {d : ChartDocument} (h : ofText text = .ok d) :
    d.Plain := by
  unfold ofText at h
  split at h
  · cases h
  · next config document hsplit =>
    split at h
    · next chart hchart =>
      cases h
      obtain ⟨j, hj, hsplit⟩ := Option.bind_eq_some_iff.1 hsplit
      obtain ⟨hconfig, hrest⟩ := plain_of_splitConfig (Json.sound_of_ofText? hj) hsplit
      exact ⟨ChartSpec.gives_decode document chart hrest hchart, hconfig⟩
    · cases h

end ChartDocument

end ChartCompiler
