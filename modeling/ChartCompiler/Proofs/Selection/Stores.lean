import ChartCompiler.Proofs.Selection.Names
import ChartCompiler.Proofs.Text.Calls
import ChartCompiler.Selection.Marks

/-!
# Stores that are named in expressions

A selection names its store in four expressions: in the tests of rows, in the test that its brush is
in its own unit, in the change of the store, and in its value. In each, the name stands in a literal
directly behind the parenthesis of a call.

No other text that is made for a selection is a change of a store: what a signal is set to starts
with another word, or with a name that no parenthesis follows.

Results:

* `ViewTree.spelled_predicateExpr`, `BrushMarks.spelled_ownUnitTest`: the literals of tests.
* `Signal.RefersTo`: the stores that a signal names.
* `Selection.known_signals`: the signals of a selection name its own store.
-/

namespace ChartCompiler

open Text (IsName Spelled)

namespace Selection

variable {s : Selection}

theorem isName_storeName (h : IsName s.name) : IsName s.storeName := by
  have hstore : Text.replaced "store" = "store" := by decide
  have hname := h.identifier_append "store"
  rwa [hstore, String.append_assoc] at hname

theorem isName_channelSignal (s : Selection) (c : Channel) (extent : Extent) :
    IsName (s.channelSignal c extent) := by
  cases extent <;> exact Text.isName_identifier _

/-! ## Tests -/

variable {known : String → Prop}

theorem spelled_storeTest (h : IsName s.name) (hs : known s.storeName) :
    Spelled known s.storeTest.toList :=
  .quote "length(data(" '(' (by decide) (isName_storeName h) (fun _ => hs) (.code (by decide))

theorem spelled_resolutionArg (s : Selection) : Spelled known s.resolutionArg.toList := by
  have hname : IsName s.resolve.name := by cases s.resolve <;> decide
  unfold resolutionArg
  split
  · exact .code (by decide)
  · exact .quote_last ", " ' ' (by decide) hname fun h => absurd h (by decide)

theorem spelled_rowTest (h : IsName s.name) (hs : known s.storeName) :
    Spelled known s.rowTest.toList := by
  have hstore : Spelled known ("vlSelectionTest(" ++ Text.quote s.storeName ++ ", datum").toList :=
    .quote "vlSelectionTest(" '(' (by decide) (isName_storeName h) (fun _ => hs)
      (.code (by decide))
  exact (hstore.append_text s.spelled_resolutionArg).append_text (.code (by decide))

theorem spelled_membership (h : IsName s.name) (hs : known s.storeName) :
    Spelled known s.membership.toList := by
  have code {text : String} (h : ∀ c ∈ text.toList, Text.IsPlain c) : Spelled known text.toList :=
    .code h
  have hstore := spelled_storeTest h hs
  have hrow := spelled_rowTest h hs
  unfold membership
  split
  · exact (((code (by decide)).append_text hstore).append_text (code (by decide))).append_text hrow
      |>.append_text (code (by decide))
  · exact ((hstore.append_text (code (by decide))).append_text hrow).append_text (code (by decide))

end Selection

namespace ViewTree

variable {t : ViewTree} {known : String → Prop}

mutual

/-- The literals behind parentheses in a test are the stores of the selections. -/
theorem spelled_predicateExpr (hknown : ∀ name id s, t.findSelection? name = some (id, s) →
      IsName s.name ∧ known s.storeName) :
    ∀ {p : SelectionPredicate} {text : String}, t.predicateExpr p = .ok text →
      Spelled known text.toList
  | .name name, text, h => by
    unfold predicateExpr membership at h
    split at h
    · next id s hfind =>
      cases h
      exact Selection.spelled_membership (hknown name id s hfind).1 (hknown name id s hfind).2
    · cases h
  | .not p, text, h => by
    rw [predicateExpr] at h
    obtain ⟨inner, hinner, h⟩ := bind_eq_ok.1 h
    cases h
    have hopen : Spelled known "!(".toList := .code (by decide)
    exact (hopen.append_text (spelled_predicateExpr hknown hinner)).append_text (.code (by decide))
  | .and ps, text, h => by
    rw [predicateExpr] at h
    obtain ⟨texts, htexts, h⟩ := bind_eq_ok.1 h
    cases h
    exact .intercalate (.code (by decide)) (spelled_operandExprs hknown htexts)
  | .or ps, text, h => by
    rw [predicateExpr] at h
    obtain ⟨texts, htexts, h⟩ := bind_eq_ok.1 h
    cases h
    exact .intercalate (.code (by decide)) (spelled_operandExprs hknown htexts)

theorem spelled_operandExprs (hknown : ∀ name id s, t.findSelection? name = some (id, s) →
      IsName s.name ∧ known s.storeName) :
    ∀ {ps : List SelectionPredicate} {texts : List String}, t.operandExprs ps = .ok texts →
      ∀ text ∈ texts, Spelled known text.toList
  | [], texts, h, text, htext => by
    rw [operandExprs] at h
    cases h
    exact (List.not_mem_nil htext).elim
  | p :: ps, texts, h, text, htext => by
    rw [operandExprs] at h
    obtain ⟨first, hfirst, h⟩ := bind_eq_ok.1 h
    obtain ⟨rest, hrest, h⟩ := bind_eq_ok.1 h
    cases h
    rcases List.mem_cons.1 htext with rfl | htext
    · have hopen : Spelled known "(".toList := .code (by decide)
      exact (hopen.append_text (spelled_predicateExpr hknown hfirst)).append_text (.code (by decide))
    · exact spelled_operandExprs hknown hrest text htext

end

end ViewTree

/-- So are those in the test of a brush. -/
theorem BrushMarks.spelled_ownUnitTest {u : UnitAt} {s : Selection} {known : String → Prop}
    (hs : IsName s.name) (hu : IsName u.view.name) (hknown : known s.storeName) {text : String}
    (h : ownUnitTest u s = some text) : Spelled known text.toList := by
  have hdata {rest : String} (hrest : Spelled known rest.toList) :
      Spelled known ("data(" ++ Text.quote s.storeName ++ ")" ++ rest).toList := by
    have hstore : Spelled known ("data(" ++ Text.quote s.storeName ++ ")").toList :=
      .quote "data(" '(' (by decide) (Selection.isName_storeName hs) (fun _ => hknown)
        (.code (by decide))
    exact hstore.append_text hrest
  have hunit : Spelled known ("[0].unit === " ++ u.literal).toList :=
    .quote_last "[0].unit === " ' ' (by decide) hu fun h => absurd h (by decide)
  unfold ownUnitTest at h
  split at h
  · cases h
    have hlength : Spelled known ".length && ".toList := .code (by decide)
    have hall := (hdata hlength).append_text (hdata hunit)
    simp only [String.append_assoc] at hall ⊢
    exact hall
  · cases h

/-! ## Signals -/

namespace Signal

/-- The datasets that a signal names: those that a signal of changes hands to the change, and the one
whose value it is. -/
inductive RefersTo (signal : Signal) (n : String) : Prop
  | modify {selection : String} {h : Handler} : signal.name = selection ++ "_modify" →
      h ∈ signal.handlers.getD [] → Text.IsCall "modify" n h.update → RefersTo signal n
  | resolve {text : String} : signal.update = some text →
      Text.IsCall "vlSelectionResolve" n text → RefersTo signal n

/-- Signals that name nothing but known datasets. -/
def Known (known : String → Prop) (signals : List Signal) : Prop :=
  ∀ signal ∈ signals, ∀ n, signal.RefersTo n → known n

end Signal

/-- A handler that changes no store. -/
def Handler.Idle (h : Handler) : Prop := ∀ n, ¬Text.IsCall "modify" n h.update

namespace Signal

variable {known : String → Prop} {signals more : List Signal}

/-- A signal that names nothing: none of its handlers changes a store, and neither is its value
one's. -/
theorem not_refersTo {signal : Signal} (hhandlers : ∀ h ∈ signal.handlers.getD [], h.Idle)
    (hupdate : ∀ text ∈ signal.update, ∀ n, ¬Text.IsCall "vlSelectionResolve" n text)
    (n : String) : ¬signal.RefersTo n := by
  rintro (⟨-, hh, hcall⟩ | ⟨htext, hcall⟩)
  · exact hhandlers _ hh n hcall
  · exact hupdate _ htext n hcall

/-- A signal that has handlers, none of which changes a store, and is set by nothing else. -/
theorem not_refersTo_handlers (name : String) (value : Option Json) {handlers : List Handler}
    (h : ∀ h ∈ handlers, h.Idle) (n : String) :
    ¬({ named name with value := value, handlers := some handlers } : Signal).RefersTo n := by
  refine not_refersTo ?_ (by simp [named]) n
  exact h

theorem RefersTo.of_addHandler {signal : Signal} {h : Handler} (hidle : h.Idle) {n : String}
    (href : (signal.addHandler h).RefersTo n) : signal.RefersTo n := by
  rcases href with ⟨hname, hh, hcall⟩ | ⟨htext, hcall⟩
  · rcases List.mem_append.1 hh with hh | hh
    · exact .modify hname hh hcall
    · exact absurd (List.mem_singleton.1 hh ▸ hcall) (hidle n)
  · exact .resolve htext hcall

namespace Known

theorem nil : Known known [] := fun _ h => (List.not_mem_nil h).elim

theorem append (h : Known known signals) (h' : Known known more) :
    Known known (signals ++ more) := fun signal hsignal =>
  (List.mem_append.1 hsignal).elim (h signal) (h' signal)

theorem cons {signal : Signal} (h : ∀ n, signal.RefersTo n → known n) (h' : Known known signals) :
    Known known (signal :: signals) := List.forall_mem_cons.2 ⟨h, h'⟩

/-- Signals that name nothing may be added. -/
theorem of_not (h : ∀ signal ∈ signals, ∀ n, ¬signal.RefersTo n) : Known known signals :=
  fun signal hsignal n href => absurd href (h signal hsignal n)

/-- A change after which a signal names no more than before. -/
theorem mapFirst {name : String} {f : Signal → Signal}
    (hf : ∀ signal n, (f signal).RefersTo n → signal.RefersTo n) (h : Known known signals) :
    Known known (mapFirst name f signals) := by
  induction signals with
  | nil => exact h
  | cons signal rest ih =>
    obtain ⟨hsignal, hrest⟩ := List.forall_mem_cons.1 h
    unfold Signal.mapFirst
    split
    · exact cons (fun n href => hsignal n (hf signal n href)) hrest
    · exact cons hsignal (ih hrest)

theorem foldl {α : Type} {f : List Signal → α → List Signal}
    (hf : ∀ signals a, Known known signals → Known known (f signals a)) (l : List α)
    (h : Known known signals) : Known known (l.foldl f signals) := by
  induction l generalizing signals with
  | nil => exact h
  | cons a rest ih => exact ih (hf signals a h)

end Known

end Signal

/-! ## Signals of a unit -/

namespace Selection

open Text (not_isCall_append)

variable {known : String → Prop} {u : UnitAt} {s : Selection} {signals : List Signal}

theorem isName_modify : IsName "modify" := by decide

theorem isName_resolve : IsName "vlSelectionResolve" := by decide

/-- The change of the store names the store. -/
theorem modifySignal_refersTo (hs : IsName s.name) {n : String}
    (h : (s.modifySignal u).RefersTo n) : n = s.storeName := by
  have hcallee : "modify(" = "modify" ++ "(" :=
    String.toList_injective (by rw [String.toList_append]; decide)
  rcases h with ⟨-, hh, hcall⟩ | ⟨htext, -⟩
  · obtain rfl := List.mem_singleton.1 hh
    rw [Handler.of, hcallee, String.append_assoc, String.append_assoc] at hcall
    exact (Text.isCall_iff (isName_storeName hs)).1 hcall
  · cases htext

/-- The value of a selection names the store. -/
theorem resolveExpr_isCall (hs : IsName s.name) {n : String}
    (h : Text.IsCall "vlSelectionResolve" n s.resolveExpr) : n = s.storeName := by
  have hcallee : "vlSelectionResolve(" = "vlSelectionResolve" ++ "(" :=
    String.toList_injective (by rw [String.toList_append]; decide)
  unfold resolveExpr at h
  rw [hcallee, String.append_assoc] at h
  exact (Text.isCall_iff (isName_storeName hs)).1 h

/-! ### Handlers -/

theorem idle_of_opener (events : EventSource) (text : String) (force : Option Bool)
    (h : Text.opener text ≠ ("modify".toList, some '(')) : Handler.Idle ⟨events, text, force⟩ :=
  Text.not_isCall isName_modify h

theorem idle_overRow (events : List EventStream) (value : String) (force : Option Bool) :
    Handler.Idle ⟨.ofStreams events, overRow value, force⟩ := by
  intro n
  unfold overRow
  rw [String.append_assoc]
  exact not_isCall_append _ isName_modify (by decide) _ _

theorem idle_brackets (events : EventSource) (items : List String) :
    (Handler.of events (Text.brackets items)).Idle := by
  intro n
  unfold Text.brackets Handler.of
  rw [String.append_assoc]
  exact not_isCall_append _ isName_modify (by decide) _ _

theorem idle_braces (events : EventSource) (inside : String) :
    (Handler.of events (Text.braces inside)).Idle := by
  intro n
  unfold Text.braces Handler.of
  rw [String.append_assoc]
  exact not_isCall_append _ isName_modify (by decide) _ _

theorem idle_rescaled (c : Channel) (events : EventSource) :
    (Handler.of events (Interval.rescaled u s c)).Idle := by
  unfold Interval.rescaled
  split
  · exact idle_brackets _ _
  · exact idle_of_opener _ "[0, 0]" _ (by decide)

/-- What the resetting handlers set signals to. -/
theorem idle_reset (streams : List EventStream) :
    ∀ value ∈ ["[0, 0]", "null", "false"], (Handler.of (.ofStreams streams) value).Idle := by
  intro value hvalue n hcall
  refine absurd hcall.opening_mem ?_
  exact (by decide : ∀ value ∈ ["[0, 0]", "null", "false"], '(' ∉ value.toList) value hvalue

/-! ### Signals that come with the type -/

theorem known_channelSignals (c : Channel) (streams : List EventStream) :
    Signal.Known known (Interval.channelSignals u s c streams) := by
  unfold Interval.channelSignals
  refine .of_not ?_
  split
  · rw [List.forall_mem_singleton]
    exact Signal.not_refersTo_handlers _ _ (List.forall_mem_nil _)
  · rw [List.forall_mem_cons, List.forall_mem_singleton]
    refine ⟨Signal.not_refersTo_handlers _ _ ?_, Signal.not_refersTo_handlers _ _ ?_⟩
    · rw [List.forall_mem_append, List.forall_mem_singleton]
      refine ⟨fun h hh => ?_, idle_rescaled c _⟩
      obtain ⟨stream, -, hh⟩ := List.mem_flatMap.1 hh
      rcases List.mem_append.1 hh with hh | hh
      · obtain ⟨start, -, rfl⟩ := List.mem_map.1 hh
        exact idle_brackets _ _
      · obtain rfl := List.mem_singleton.1 hh
        exact idle_brackets _ _
    · rw [List.forall_mem_singleton]
      intro n
      rw [Handler.of]
      simp only [String.append_assoc]
      refine (s.isName_channelSignal c .pixels).not_isCall isName_modify (c := '[') ?_ (by decide) n
      exact Text.opener_append (by decide) _

/-- Conditions joined to one are no call, if none of them starts like a call. -/
theorem not_isCall_conditions {callee : String} (hcallee : IsName callee) {conditions : List String}
    (h : ∀ condition ∈ conditions, ∀ more, (Text.opener more).1 = [] →
      (Text.opener more).2 = some ' ' → ∀ arg, ¬Text.IsCall callee arg (condition ++ more))
    (arg rest : String) :
    ¬Text.IsCall callee arg (" && ".intercalate conditions ++ (" ? " ++ rest)) := by
  have hquestion : Text.opener (" ? " ++ rest) = Text.opener " ? " :=
    Text.opener_append (by decide) rest
  have hthen : (Text.opener " ? ").1 = [] ∧ (Text.opener " ? ").2 = some ' ' := by decide
  cases conditions with
  | nil =>
    have hempty : " && ".intercalate [] = "" := rfl
    rw [hempty, String.empty_append]
    exact not_isCall_append " ? " hcallee ⟨by decide, fun heq => by simp [heq] at hthen⟩ arg rest
  | cons first others =>
    have hfirst := h first List.mem_cons_self
    cases others with
    | nil =>
      rw [String.intercalate_singleton]
      exact hfirst _ (hquestion ▸ hthen.1) (hquestion ▸ hthen.2) arg
    | cons second others =>
      rw [String.intercalate_cons_cons, String.append_assoc, String.append_assoc]
      have hand : Text.opener (" && " ++ (" && ".intercalate (second :: others) ++ (" ? " ++ rest)))
          = Text.opener " && " := Text.opener_append (by decide) _
      have hboth : (Text.opener " && ").1 = [] ∧ (Text.opener " && ").2 = some ' ' := by decide
      exact hfirst _ (hand ▸ hboth.1) (hand ▸ hboth.2) arg

theorem not_isCall_names {callee : String} (hcallee : IsName callee) {names : List String}
    (h : ∀ name ∈ names, IsName name) (arg rest : String) :
    ¬Text.IsCall callee arg (" && ".intercalate names ++ (" ? " ++ rest)) :=
  not_isCall_conditions hcallee (fun name hname more hnil hblank =>
    (h name hname).not_isCall hcallee (Prod.ext hnil hblank) (by decide)) arg rest

theorem known_scaleTrigger (channels : List Channel) :
    Signal.Known known [Interval.scaleTrigger u s channels] := by
  refine .of_not (List.forall_mem_singleton.2 fun n => Signal.not_refersTo ?_ ?_ n)
  · exact List.forall_mem_nil _
  · rintro text htext arg
    obtain rfl := Option.some.inj htext
    rw [String.append_assoc, String.append_assoc, String.append_assoc]
    refine not_isCall_conditions isName_resolve (fun condition hcondition more _ _ arg => ?_) arg _
    obtain ⟨c, -, rfl⟩ := List.mem_map.1 hcondition
    unfold Interval.scaleChanged
    simp only [String.append_assoc]
    exact not_isCall_append "(!isArray(" isName_resolve (by decide) arg _

theorem known_tupleSignal (found : List (Channel × String)) :
    Signal.Known known [Interval.tupleSignal u s found] := by
  refine .of_not (List.forall_mem_singleton.2 (Signal.not_refersTo_handlers _ _ ?_))
  rw [List.forall_mem_singleton]
  intro n
  rw [Handler.of, String.append_assoc, String.append_assoc]
  refine not_isCall_names isName_modify (fun name hname => ?_) n _
  obtain ⟨p, -, rfl⟩ := List.mem_map.1 hname
  exact s.isName_channelSignal p.1 .data

theorem known_ownSignals {own : List Signal} (h : (s.ownSignals u).outcome = .ok own) :
    Signal.Known known own := by
  cases htype : s.type with
  | single | multi =>
    simp only [ownSignals, htype] at h
    cases h
    refine .of_not (List.forall_mem_singleton.2 (Signal.not_refersTo_handlers _ _ ?_))
    exact List.forall_mem_singleton.2 (idle_overRow _ _ _)
  | interval =>
    simp only [ownSignals, htype] at h
    obtain ⟨streams, rfl⟩ := outcome_intervalSignals h
    refine (Signal.Known.append ?_ ?_).append (known_tupleSignal _)
    · intro signal hsignal
      obtain ⟨p, -, hsignal⟩ := List.mem_flatMap.1 hsignal
      exact known_channelSignals p.1 streams signal hsignal
    · split
      · exact .nil
      · exact known_scaleTrigger _

/-! ### Behaviours -/

theorem known_reset (streams : List EventStream) (name : String) {value : String}
    (hvalue : value ∈ ["[0, 0]", "null", "false"]) (h : Signal.Known known signals) :
    Signal.Known known (Clear.reset streams name value signals) := by
  refine h.mapFirst fun signal n href => ?_
  split at href
  · exact href.of_addHandler (idle_reset streams value hvalue)
  · exact href

theorem known_clear (h : Signal.Known known signals) :
    Signal.Known known (Clear.signals s signals) := by
  unfold Clear.signals
  split
  · exact h
  · next streams _ =>
    split
    · refine Signal.Known.foldl (fun signals c h => ?_) _ h
      unfold Clear.resetChannel
      dsimp only
      split <;> exact known_reset streams _ (by decide) h
    · exact known_reset streams _ (by decide) (known_reset streams _ (by decide) h)

/-- The handlers of gestures set an extent to what a function of its own gives. -/
theorem known_addHandler (c : Channel) (delta : String) {update : String}
    (hupdate : ∀ n, ¬Text.IsCall "modify" n update) (h : Signal.Known known signals) :
    Signal.Known known (Gesture.addHandler u s c delta update signals) := by
  refine h.mapFirst fun signal n href => href.of_addHandler ?_
  unfold Handler.Idle Handler.of
  split
  · exact hupdate
  · intro n
    simp only [String.append_assoc]
    exact not_isCall_append "clampRange(" isName_modify (by decide) n _

theorem not_isCall_functionName {verb : String} (hverb : verb = "pan" ∨ verb = "zoom")
    (scale : Option Scale) (n rest : String) :
    ¬Text.IsCall "modify" n (Gesture.functionName verb s scale ++ "(" ++ rest) := by
  have hnames : ∀ name ∈ ["panLog", "panPow", "panLinear", "zoomLog", "zoomPow", "zoomLinear"],
      IsName name ∧ name.toList ≠ "modify".toList := by decide
  have hmem : Gesture.functionName verb s scale ∈
      ["panLog", "panPow", "panLinear", "zoomLog", "zoomPow", "zoomLinear"] := by
    unfold Gesture.functionName
    rcases hverb with rfl | rfl <;> split <;> decide
  obtain ⟨hname, hne⟩ := hnames _ hmem
  intro hcall
  have hopening : Text.opener ("(" ++ rest) = ([], some '(') := by
    rw [Text.opener_append (by decide)]
    decide
  rw [String.append_assoc] at hcall
  exact hne (congrArg Prod.fst
    ((hname.opener_append hopening).symm.trans (hcall.opener isName_modify)))

theorem known_drag {after : List Signal} (h : (Drag.signals u s signals).outcome = .ok after)
    (hknown : Signal.Known known signals) : Signal.Known known after := by
  obtain ⟨streams, -, h⟩ := CompileM.outcome_bind.1 h
  cases h
  refine Signal.Known.foldl (fun signals c h => known_addHandler c _ (fun n => ?_) h) _
    (hknown.append (.of_not ?_))
  · unfold Drag.update
    simp only [String.append_assoc]
    rw [← String.append_assoc]
    exact not_isCall_functionName (.inl rfl) _ n _
  · rw [List.forall_mem_cons, List.forall_mem_singleton]
    exact ⟨Signal.not_refersTo_handlers _ _ (List.forall_mem_singleton.2 (idle_braces _ _)),
      Signal.not_refersTo_handlers _ _ (List.forall_mem_singleton.2 (idle_braces _ _))⟩

theorem known_wheel {after : List Signal} (h : (Wheel.signals u s signals).outcome = .ok after)
    (hknown : Signal.Known known signals) : Signal.Known known after := by
  obtain ⟨streams, -, h⟩ := CompileM.outcome_bind.1 h
  cases h
  refine Signal.Known.foldl (fun signals c h => known_addHandler c _ (fun n => ?_) h) _
    (hknown.append (.of_not ?_))
  · unfold Wheel.update
    simp only [String.append_assoc]
    rw [← String.append_assoc]
    exact not_isCall_functionName (.inr rfl) _ n _
  · rw [List.forall_mem_cons, List.forall_mem_singleton]
    refine ⟨Signal.not_refersTo_handlers _ _ (List.forall_mem_singleton.2 ?_),
      Signal.not_refersTo_handlers _ _ (List.forall_mem_singleton.2 ?_)⟩
    · unfold Wheel.anchorExpr
      split <;> exact idle_braces _ _
    · exact idle_of_opener _ "pow(1.001, event.deltaY * pow(16, event.deltaMode))" _ (by decide)

theorem known_applyBehaviour {after : List Signal} {b : Behaviour}
    (h : (s.applyBehaviour u signals b).outcome = .ok after) (hknown : Signal.Known known signals) :
    Signal.Known known after := by
  cases b with
  | project | nearest =>
    cases h
    exact hknown
  | toggle =>
    cases h
    refine hknown.append (.of_not (List.forall_mem_singleton.2 fun n href => ?_))
    rcases href with ⟨hname, -, -⟩ | ⟨htext, -⟩
    · next selection _ =>
      have hends : s.name ++ "_" ++ "toggle" = selection ++ "_" ++ "modify" := by
        rw [String.append_assoc, String.append_assoc]
        exact hname
      exact absurd (Text.append_underscore_inj (by decide) (by decide) hends).2 (by decide)
    · cases htext
  | scales =>
    cases h
    unfold BoundScales.push
    split
    · refine Signal.Known.foldl (fun signals c h => h.mapFirst fun signal n href => ?_) _ hknown
      rcases href with ⟨hname, hh, hcall⟩ | ⟨htext, -⟩
      · exact .modify hname hh hcall
      · cases htext
    · exact hknown
  | inputs =>
    cases h
    refine hknown.mapFirst fun signal n href => absurd href (Signal.not_refersTo ?_ ?_ n)
    · exact List.forall_mem_nil _
    · rintro text htext arg
      obtain rfl := Option.some.inj htext
      unfold Inputs.tupleUpdate
      dsimp only
      rw [String.append_assoc, String.append_assoc]
      refine not_isCall_names isName_resolve (fun name hname => ?_) arg _
      obtain ⟨f, -, rfl⟩ := List.mem_map.1 hname
      exact Text.isName_identifier _
  | clear =>
    cases h
    exact known_clear hknown
  | translate => exact known_drag h hknown
  | zoom => exact known_wheel h hknown

/-- The signals of a selection in its unit name no store but its own. -/
theorem known_signals (hs : IsName s.name) (hstore : known s.storeName)
    (h : (s.signals u).outcome = .ok signals) : Signal.Known known signals := by
  obtain ⟨own, hown, h⟩ := CompileM.outcome_bind.1 h
  obtain ⟨decorated, hdecorated, h⟩ := CompileM.outcome_bind.1 h
  cases h
  have hknown : Signal.Known known decorated := CompileM.inv_of_foldlM (Signal.Known known)
    (fun _ _ _ _ hbefore hstep => known_applyBehaviour hstep hbefore) (known_ownSignals hown)
    hdecorated
  refine hknown.append ?_
  exact List.forall_mem_singleton.2 fun n href => modifySignal_refersTo hs href ▸ hstore

end Selection

end ChartCompiler
